import Mathlib
import TrtLlm.Lib.Dict

/-!
# `KVCacheEventManager`

The queue of cache events for a reader outside, such as a router that mirrors the cache. Removals are collected per
layer group and turned into one event when the next event of another kind needs them out of the way; a stored block
whose parent ends the latest stored event of its layer group is merged into it.

The hash a block is announced under is a parameter, a function of the block's key.
-/

namespace TrtLlm.KvCache.Events

abbrev LayerGroupId := Option Nat

structure KVCacheStoredBlockData (Hash Token : Type) where
  blockHash : Hash
  tokens : List Token
  cacheLevel : Nat
  priority : Int
deriving DecidableEq, Repr

structure KVCacheEventDiff where
  oldValue : Int
  newValue : Int
deriving DecidableEq, Repr

inductive EventData (Hash Token : Type) where
  | created (numBlocksPerCacheLevel : List Nat)
  | stored (parentHash : Option Hash) (blocks : List (KVCacheStoredBlockData Hash Token))
  | removed (blockHashes : List Hash)
  | updated (blockHash : Hash) (cacheLevel priority : Option KVCacheEventDiff)
deriving DecidableEq, Repr

namespace EventData

variable {Hash Token : Type}

def isStored : EventData Hash Token → Bool
  | .stored _ _ => true
  | _ => false

def isRemoved : EventData Hash Token → Bool
  | .removed _ => true
  | _ => false

end EventData

structure KVCacheEvent (Hash Token : Type) where
  eventId : Nat
  data : EventData Hash Token
  windowSize : Int
  layerGroupId : LayerGroupId
deriving DecidableEq, Repr

structure StoredBlockState (Hash : Type) where
  blockHash : Hash
  lifeCycleIds : Finset Nat
deriving DecidableEq

structure Page where
  cacheLevel : Nat
  priority : Int
  numTokensInBlock : Nat
deriving DecidableEq, Repr

/-- What the event manager reads of a block of the radix tree: `prev` is the key of its parent, if that is not the
root. -/
structure Block (Key Token : Type) where
  key : Key
  tokens : List Token
  storage : List (Option Page)
  prev : Option Key
deriving DecidableEq, Repr

/-- How a caller names a block: by its key, or by the hash it was announced under. -/
inductive BlockHashLike (Key Hash : Type) where
  | key (key : Key)
  | hash (hash : Hash)
deriving DecidableEq, Repr

/-- `hasGather` says whether `attention_dp_gather` is set. -/
structure KVCacheEventManager (Key Hash Token : Type) where
  maxKvEventEntries : Int
  windowSize : Int := 0
  windowSizeByLayerGroup : Dict Nat Int := ∅
  attentionDpRank : Option Nat := none
  hasGather : Bool := false
  nextEventId : Nat := 0
  storedBlocks : Dict Key (StoredBlockState Hash) := ∅
  latestStoredEvents : Dict LayerGroupId (KVCacheEvent Hash Token) := ∅
  latestRemovedBlockHashes : Dict LayerGroupId (List Hash) := ∅
  pendingEvents : List (KVCacheEvent Hash Token) := []
  events : List (KVCacheEvent Hash Token) := []

def priorityDefault : Int := 35

namespace Block

variable {Key Hash Token : Type}

def wholePage (block : Block Key Token) (page : Option Page) : Option Page :=
  page.filter fun page => block.tokens.length ≤ page.numTokensInBlock

def lifeCycleIds (block : Block Key Token) : Finset Nat :=
  ((block.storage.zipIdx.filter fun (page, _) => (block.wholePage page).isSome).map Prod.snd).toFinset

def storedBlockData (hash : Key → Hash) (block : Block Key Token) (lifeCycleIds : Option (Finset Nat)) :
    Option (KVCacheStoredBlockData Hash Token) :=
  let found := block.storage.zipIdx.findSome? fun (page, lifeCycleId) =>
    if lifeCycleIds.any (lifeCycleId ∉ ·) then none else block.wholePage page
  match found with
  | some page => some ⟨hash block.key, block.tokens, page.cacheLevel, page.priority⟩
  | none => if lifeCycleIds.isSome then none else some ⟨hash block.key, block.tokens, 0, priorityDefault⟩

def parentHash (hash : Key → Hash) (block : Block Key Token) : Option Hash := block.prev.map hash

end Block

namespace KVCacheEventManager

variable {Key Hash Token : Type}

/-! ### Events -/

variable (m : KVCacheEventManager Key Hash Token)

def getWindowSize (layerGroupId : LayerGroupId) : Int :=
  match layerGroupId with
  | none => m.windowSize
  | some layerGroupId => (m.windowSizeByLayerGroup.get? layerGroupId).getD m.windowSize

variable (data : EventData Hash Token) (layerGroupId : LayerGroupId)

/-- The end of `_add_event_unlocked`, after pending removals have been flushed. -/
def appendEvent : KVCacheEvent Hash Token × KVCacheEventManager Key Hash Token :=
  let event := ⟨m.nextEventId, data, m.getWindowSize layerGroupId, layerGroupId⟩
  (event, { m with
    nextEventId := m.nextEventId + 1
    pendingEvents := m.pendingEvents ++ [event]
    latestStoredEvents := if data.isStored then m.latestStoredEvents else m.latestStoredEvents.erase layerGroupId })

def flushRemovedEventsUnlocked : KVCacheEventManager Key Hash Token :=
  let popped := { m with latestRemovedBlockHashes := m.latestRemovedBlockHashes.erase layerGroupId }
  match m.latestRemovedBlockHashes.get? layerGroupId with
  | none => m
  | some [] => popped
  | some (blockHash :: rest) => (popped.appendEvent (.removed (blockHash :: rest)) layerGroupId).2

def flushAllRemovedEventsUnlocked : KVCacheEventManager Key Hash Token :=
  m.latestRemovedBlockHashes.keys.foldl flushRemovedEventsUnlocked m

def addEventUnlocked : KVCacheEvent Hash Token × KVCacheEventManager Key Hash Token :=
  (if data.isRemoved then m else m.flushAllRemovedEventsUnlocked).appendEvent data layerGroupId

def addEvent : KVCacheEventManager Key Hash Token :=
  if m.maxKvEventEntries ≤ 0 then m else (m.addEventUnlocked data layerGroupId).2

/-- `_replace_pending_event_unlocked`: the last pending event that is the given one, which its id tells; `none` is the
`RuntimeError`. -/
def replacePendingEvent (oldEvent newEvent : KVCacheEvent Hash Token) :
    List (KVCacheEvent Hash Token) → Option (List (KVCacheEvent Hash Token))
  | [] => none
  | event :: rest =>
    match replacePendingEvent oldEvent newEvent rest with
    | some rest => some (event :: rest)
    | none => if event.eventId = oldEvent.eventId then some (newEvent :: rest) else none

variable (parentHash : Option Hash)

/-- The latest stored event of a layer group, when a stored event with the given parent continues it. -/
def continuedEvent [DecidableEq Hash] (layerGroupId : LayerGroupId) :
    Option (KVCacheEvent Hash Token × Option Hash × List (KVCacheStoredBlockData Hash Token)) :=
  if m.latestRemovedBlockHashes.entries ≠ [] then none
  else
    match m.latestStoredEvents.get? layerGroupId with
    | some latestEvent =>
      match latestEvent.data with
      | .stored latestParent latestBlocks =>
        match latestBlocks.getLast? with
        | some last =>
          if some last.blockHash = parentHash then some (latestEvent, latestParent, latestBlocks) else none
        | none => none
      | _ => none
    | none => none

variable (blocks : List (KVCacheStoredBlockData Hash Token))

/-- `_add_stored_event`; `none` is the `RuntimeError`. -/
def addStoredEventLocked [DecidableEq Hash] (layerGroupId : LayerGroupId) :
    Option (KVCacheEventManager Key Hash Token) :=
  if m.maxKvEventEntries ≤ 0 then some m
  else
    match m.continuedEvent parentHash layerGroupId with
    | some (latestEvent, latestParent, latestBlocks) =>
      let mergedEvent := { latestEvent with data := .stored latestParent (latestBlocks ++ blocks) }
      (replacePendingEvent latestEvent mergedEvent m.pendingEvents).map fun pendingEvents => { m with
        pendingEvents
        latestStoredEvents := m.latestStoredEvents.insert layerGroupId mergedEvent }
    | none =>
      let (event, m) := m.addEventUnlocked (.stored parentHash blocks) layerGroupId
      some { m with latestStoredEvents := m.latestStoredEvents.insert layerGroupId event }

def addStoredEvent [DecidableEq Hash] (layerGroupId : LayerGroupId) : Option (KVCacheEventManager Key Hash Token) :=
  match blocks with
  | [] => some m
  | block :: rest =>
    let m := if m.maxKvEventEntries ≤ 0 then m else m.flushRemovedEventsUnlocked layerGroupId
    m.addStoredEventLocked parentHash (block :: rest) layerGroupId

def enqueueRemovedEvent (blockHashes : List Hash) (layerGroupId : LayerGroupId) : KVCacheEventManager Key Hash Token :=
  match blockHashes with
  | [] => m
  | blockHash :: rest =>
    if m.maxKvEventEntries ≤ 0 then m
    else { m with
      latestRemovedBlockHashes :=
        m.latestRemovedBlockHashes.upsert layerGroupId fun hashes => hashes.getD [] ++ (blockHash :: rest)
      latestStoredEvents := m.latestStoredEvents.erase layerGroupId }

/-! ### Calls of the cache -/

section Calls

variable [DecidableEq Key] [DecidableEq Hash] (hash : Key → Hash)

/-- The loop of `add_stored_block_event_from_block` over the life cycles of a block. -/
def announceLifeCycles (block : Block Key Token) :
    List Nat → KVCacheEventManager Key Hash Token → Option (KVCacheEventManager Key Hash Token)
  | [], m => some m
  | lifeCycleId :: rest, m =>
    match block.storedBlockData hash (some {lifeCycleId}) with
    | none => announceLifeCycles block rest m
    | some blockData => do
        let m ← m.addStoredEvent (block.parentHash hash) [blockData] (some lifeCycleId)
        announceLifeCycles block rest m

def addStoredBlockEventFromBlock (block : Block Key Token) : Option (KVCacheEventManager Key Hash Token) :=
  if block.lifeCycleIds = ∅ then some m
  else
    announceLifeCycles hash block (block.lifeCycleIds.sort (· ≤ ·))
      { m with storedBlocks := m.storedBlocks.insert block.key ⟨hash block.key, block.lifeCycleIds⟩ }

def addStoredLifeCycleEventFromBlock (block : Block Key Token) (lifeCycleId : Nat) :
    Option (KVCacheEventManager Key Hash Token) :=
  match m.storedBlocks.get? block.key with
  | some state =>
    if lifeCycleId ∈ state.lifeCycleIds then some m
    else
      match block.storedBlockData hash (some {lifeCycleId}) with
      | none => some m
      | some blockData =>
        let state := { state with lifeCycleIds := insert lifeCycleId state.lifeCycleIds }
        addStoredEvent { m with storedBlocks := m.storedBlocks.insert block.key state }
          (block.parentHash hash) [blockData] (some lifeCycleId)
  | none => m.addStoredBlockEventFromBlock hash block

variable (blockHash : BlockHashLike Key Hash)

def popStoredBlockState : Option (Hash × Finset Nat) × KVCacheEventManager Key Hash Token :=
  match blockHash with
  | .key key =>
    ((m.storedBlocks.get? key).map fun state => (state.blockHash, state.lifeCycleIds),
      { m with storedBlocks := m.storedBlocks.erase key })
  | .hash hash => (some (hash, ∅), m)

/-- The hashes `add_removed_event` collects: those of the blocks of each layer group, and those without one. -/
structure RemovedHashes (Hash : Type) where
  byLayerGroup : Dict Nat (List Hash) := ∅
  withoutLayerGroup : List Hash := []

def RemovedHashes.add (removed : RemovedHashes Hash) (normalizedHash : Hash) (lifeCycleIds : Finset Nat) :
    RemovedHashes Hash :=
  if lifeCycleIds = ∅ then { removed with withoutLayerGroup := removed.withoutLayerGroup ++ [normalizedHash] }
  else { removed with
    byLayerGroup := (lifeCycleIds.sort (· ≤ ·)).foldl
      (fun d lifeCycleId => d.upsert lifeCycleId fun hashes => hashes.getD [] ++ [normalizedHash]) removed.byLayerGroup }

/-- The loop of `add_removed_event` over the blocks. -/
def collectRemoved : List (BlockHashLike Key Hash) → RemovedHashes Hash → KVCacheEventManager Key Hash Token →
    RemovedHashes Hash × KVCacheEventManager Key Hash Token
  | [], removed, m => (removed, m)
  | blockHash :: rest, removed, m =>
    match m.popStoredBlockState blockHash with
    | (none, m) => collectRemoved rest removed m
    | (some (normalizedHash, lifeCycleIds), m) => collectRemoved rest (removed.add normalizedHash lifeCycleIds) m

def addRemovedEvent (blockHashes : List (BlockHashLike Key Hash)) : KVCacheEventManager Key Hash Token :=
  let (removed, m) := m.collectRemoved blockHashes {}
  let m := m.enqueueRemovedEvent removed.withoutLayerGroup none
  (removed.byLayerGroup.entries.insertionSort fun a b => a.1 ≤ b.1).foldl
    (fun m entry => m.enqueueRemovedEvent entry.2 (some entry.1)) m

/-- `add_removed_life_cycle_event`, with `_pop_stored_life_cycle_block_state`. -/
def addRemovedLifeCycleEvent (key : Key) (lifeCycleId : Nat) : KVCacheEventManager Key Hash Token :=
  match m.storedBlocks.get? key with
  | none => m
  | some state =>
    if lifeCycleId ∉ state.lifeCycleIds then m
    else
      let remaining := state.lifeCycleIds.erase lifeCycleId
      let storedBlocks :=
        if remaining = ∅ then m.storedBlocks.erase key
        else m.storedBlocks.insert key { state with lifeCycleIds := remaining }
      enqueueRemovedEvent { m with storedBlocks } [state.blockHash] (some lifeCycleId)

def getStoredBlockHash : Option Hash :=
  match blockHash with
  | .key key => (m.storedBlocks.get? key).map StoredBlockState.blockHash
  | .hash hash => some hash

def addUpdatedEvent (cacheLevel priority : Option KVCacheEventDiff) (layerGroupId : LayerGroupId) :
    KVCacheEventManager Key Hash Token :=
  if cacheLevel.isNone ∧ priority.isNone then m
  else
    match m.getStoredBlockHash blockHash with
    | none => m
    | some normalizedBlockHash => m.addEvent (.updated normalizedBlockHash cacheLevel priority) layerGroupId

end Calls

/-! ### Publication -/

def drainPendingEvents : List (KVCacheEvent Hash Token) × KVCacheEventManager Key Hash Token :=
  let m := m.flushAllRemovedEventsUnlocked
  (m.pendingEvents, { m with pendingEvents := [], latestStoredEvents := ∅ })

variable (events : List (KVCacheEvent Hash Token))

/-- `_publish_events_unlocked`: the oldest events give way when there are too many. -/
def publishEvents (maxKvEventEntries : Int) : KVCacheEventManager Key Hash Token :=
  match events with
  | [] => m
  | event :: rest =>
    let all := m.events ++ (event :: rest)
    { m with events := all.drop (all.length - maxKvEventEntries.toNat) }

def trimEvents (maxKvEventEntries : Int) : List (KVCacheEvent Hash Token) := events.drop (events.length - maxKvEventEntries.toNat)

/-- `flush_iteration_events`; `gather` is what `attention_dp_gather` answers. -/
def flushIterationEvents (gather : List (KVCacheEvent Hash Token) → List (List (KVCacheEvent Hash Token))) :
    KVCacheEventManager Key Hash Token :=
  let (localEvents, m) := m.drainPendingEvents
  if m.hasGather then
    let gatheredEvents := gather (trimEvents localEvents m.maxKvEventEntries)
    if m.attentionDpRank ≠ some 0 then m
    else
      m.publishEvents (gatheredEvents.flatMap (trimEvents · m.maxKvEventEntries))
        (m.maxKvEventEntries * max 1 gatheredEvents.length)
  else m.publishEvents localEvents m.maxKvEventEntries

/-- `get_latest_events`, once there are events or the time is up. -/
def getLatestEvents : List (KVCacheEvent Hash Token) × KVCacheEventManager Key Hash Token := (m.events, { m with events := [] })

end KVCacheEventManager

end TrtLlm.KvCache.Events
