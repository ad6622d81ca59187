import Mathlib
import TrtLlm.BatchManager.BlockKey
import TrtLlm.BatchManager.TemplatedTrie
import TrtLlm.Lib.Outcome

/-!
# The block pool of one attention window

The state of a `WindowBlockManager`: its blocks, the free queues of its `LRUEvictionPolicy`, the block lists of
the live sequences and the lookup tree it shares with the managers of the other windows. A check that fails
ends an operation with the text of the check.
-/

namespace TrtLlm.BatchManager

open Function

abbrev BlockId := ℕ

/-- `kPrimaryLevel` and `kSecondaryLevel`. -/
inductive CacheLevel where
  | primary
  | secondary
deriving DecidableEq

structure KVCacheIndex where
  level : CacheLevel
  slot : ℕ
deriving DecidableEq

structure KVCacheBlock where
  memoryPoolBlockIndex : KVCacheIndex
  refCount : ℕ
  blockKey : BlockKey
  lookupNode : Option (List BlockKey)
  /-- A pooled placeholder of linear attention. The placeholders of sliding windows are not pool blocks. -/
  isPlaceholder : Bool
  isFull : Bool
  priority : RetentionPriority
  durationMs : Option ℕ
  expirationTime : Option ℕ

/-- What a sequence holds: a block of the pool, or a placeholder made by `createPlaceholder()`. -/
inductive BlockPtr where
  | block (id : BlockId)
  | placeholder (id : ℕ)
deriving DecidableEq

inductive CacheType where
  | self
  | selfKOnly
  | cross
deriving DecidableEq

structure WindowConfig where
  windowSize : ℕ
  tokensPerBlock : ℕ
  tokensPerBlock_pos : 0 < tokensPerBlock
  isSWA : Bool
  isRecurrentState : Bool
  hasLinearAttentionMetadata : Bool
  enableBlockReuse : Bool
  enablePartialReuse : Bool
  copyOnPartialReuse : Bool
  cacheType : CacheType
  numPrimaryBlocks : ℕ
  numSecondaryBlocks : ℕ
  secondaryOffloadMinPriority : RetentionPriority
  maxTokenNum : ℕ
  /-- `getNumNewMatchedTokens` of the cache connector, if there is one. -/
  kvCacheConnector : Option (LlmRequest → ℕ → ℕ)

structure GenerationRequest where
  numTokens : ℕ
  beamWidth : ℕ
  beamWidth_pos : 0 < beamWidth
  cacheBlockIds : ℕ → List BlockPtr
  numFrontBlocksRemoved : ℕ
  currentPrepopulatedPromptLen : ℕ
  decodeRetentionPriority : RetentionPriority
  decodeDurationMs : Option ℕ

/-- What the manager does with a block, in the order in which it happens. -/
inductive PoolEvent where
  | handOut (block : BlockId)
  /-- The cached block moves to the secondary slot of the other block, which takes its primary slot. -/
  | offload (block offloadBlock : BlockId)
  /-- The first block moves to the primary slot of the second one. -/
  | onboard (offloadBlock block : BlockId)
  | copy (copySource newBlock : BlockId)
  | attach (block : BlockId) (node : List BlockKey)
deriving DecidableEq

structure WindowBlockManager where
  lookupTree : Trie BlockKey ℕ BlockId
  allBlocksById : BlockId → KVCacheBlock
  freeQueues : CacheLevel × RetentionPriority → List BlockId
  freeBlockIterators : BlockId → Bool
  numFreeBlocksPerLevel : CacheLevel → ℤ
  expiringBlockHeap : List BlockId
  placeholderRefCounts : ℕ → ℕ
  numPlaceholders : ℕ
  allocatedBlocksPerSeq : Dict ℕ (List BlockPtr)
  sequences : Dict ℕ GenerationRequest
  time : ℕ
  events : List PoolEvent

variable (c : WindowConfig)

/-- The state after construction: every block is free, at the default priority. -/
def WindowBlockManager.initial : WindowBlockManager where
  lookupTree := Trie.empty
  allBlocksById block :=
    { memoryPoolBlockIndex :=
        if block < c.numPrimaryBlocks then ⟨.primary, block⟩ else ⟨.secondary, block - c.numPrimaryBlocks⟩
      refCount := 0
      blockKey := ⟨false, none, [], [], none⟩
      lookupNode := none
      isPlaceholder := false
      isFull := false
      priority := kDefaultRetentionPriority
      durationMs := none
      expirationTime := none }
  freeQueues queue :=
    if queue.2 = kDefaultRetentionPriority then
      match queue.1 with
      | .primary => List.range c.numPrimaryBlocks
      | .secondary => List.range' c.numPrimaryBlocks c.numSecondaryBlocks
    else []
  freeBlockIterators block := decide (block < c.numPrimaryBlocks + c.numSecondaryBlocks)
  numFreeBlocksPerLevel
    | .primary => c.numPrimaryBlocks
    | .secondary => c.numSecondaryBlocks
  expiringBlockHeap := []
  placeholderRefCounts _ := 0
  numPlaceholders := 0
  allocatedBlocksPerSeq := ∅
  sequences := ∅
  time := 0
  events := []

abbrev Manage (α : Type) := EStateM String WindowBlockManager α

namespace WindowBlockManager

variable (s : WindowBlockManager) (block : BlockId) (f : KVCacheBlock → KVCacheBlock)

def modifyBlock : WindowBlockManager := { s with allBlocksById := update s.allBlocksById block (f (s.allBlocksById block)) }

def getCacheLevel : CacheLevel := (s.allBlocksById block).memoryPoolBlockIndex.level

def queueOf : CacheLevel × RetentionPriority := (s.getCacheLevel block, (s.allBlocksById block).priority)

def incRefCount : BlockPtr → WindowBlockManager
  | .block block => s.modifyBlock block fun b => { b with refCount := b.refCount + 1 }
  | .placeholder id =>
    { s with placeholderRefCounts := update s.placeholderRefCounts id (s.placeholderRefCounts id + 1) }

def refCount : BlockPtr → ℕ
  | .block block => (s.allBlocksById block).refCount
  | .placeholder id => s.placeholderRefCounts id

def hasRefs (block : BlockPtr) : Bool := 0 < s.refCount block

def setBlockKey (blockKey : BlockKey) (isFull : Bool) : WindowBlockManager :=
  s.modifyBlock block fun b => { b with blockKey, isFull }

def swapMemoryPoolBlockOffset (block otherBlock : BlockId) : WindowBlockManager :=
  (s.modifyBlock block fun b =>
      { b with memoryPoolBlockIndex := (s.allBlocksById otherBlock).memoryPoolBlockIndex }).modifyBlock otherBlock
    fun b => { b with memoryPoolBlockIndex := (s.allBlocksById block).memoryPoolBlockIndex }

def record (event : PoolEvent) : WindowBlockManager := { s with events := s.events ++ [event] }

/-! ### The lookup tree -/

def isLeaf : Bool := (s.allBlocksById block).lookupNode.all fun node => !s.lookupTree.hasChildren node

def isDetached : Bool := (s.allBlocksById block).lookupNode.isNone

def isShared : BlockPtr → Bool
  | .block block => 1 < (s.allBlocksById block).refCount || (s.allBlocksById block).lookupNode.isSome
  | .placeholder id => 1 < s.placeholderRefCounts id

/-- `detachFromLookupNode`. If the block's node has been pruned, nothing of the tree is cleared. -/
def detachFromLookupNode : WindowBlockManager :=
  match (s.allBlocksById block).lookupNode with
  | none => s
  | some node =>
    { s with
      lookupTree :=
        if s.lookupTree.getValue node c.windowSize = some block then s.lookupTree.clearValue node c.windowSize
        else s.lookupTree }.modifyBlock block fun b => { b with lookupNode := none }

def attachToLookupNode (node : List BlockKey) : WindowBlockManager :=
  ({ s with lookupTree := s.lookupTree.setValue node c.windowSize block }.modifyBlock block
    fun b => { b with lookupNode := some node }).record (.attach block node)

def getNextBlocks : List BlockId :=
  match (s.allBlocksById block).lookupNode with
  | none => []
  | some node => (s.lookupTree.getChildKeyValues node c.windowSize).map Prod.snd

/-! ### `LRUEvictionPolicy` -/

/-- The policy's `getFreeBlock`: the first block of the lowest priority that has one, and whether it may be
offloaded. -/
def firstFreeBlock (cacheLevel : CacheLevel) : Option (BlockId × Bool) :=
  (List.finRange 101).findSome? fun pri =>
    (s.freeQueues (cacheLevel, pri)).head?.map fun block =>
      (block, decide (cacheLevel = .primary) && decide (c.secondaryOffloadMinPriority ≤ pri))

variable (toFront : Bool)

/-- The first half of `releaseBlock`: the block enters its queue. -/
def enqueue : WindowBlockManager :=
  let queue := s.freeQueues (s.queueOf block)
  { s with
    freeQueues := update s.freeQueues (s.queueOf block) (if toFront then block :: queue else queue ++ [block])
    freeBlockIterators := update s.freeBlockIterators block true
    numFreeBlocksPerLevel := update s.numFreeBlocksPerLevel (s.getCacheLevel block)
      (s.numFreeBlocksPerLevel (s.getCacheLevel block) + 1) }

/-- The second half of `releaseBlock`: a block whose priority lasts for a time enters the heap. -/
def startExpiring : WindowBlockManager :=
  match (s.allBlocksById block).durationMs with
  | none => s
  | some durationMs =>
    if (s.allBlocksById block).priority = kDefaultRetentionPriority then s
    else
      { s.modifyBlock block fun b => { b with expirationTime := some (s.time + durationMs) } with
        expiringBlockHeap := s.expiringBlockHeap.insert block }

def releaseBlock : WindowBlockManager := (s.enqueue block toFront).startExpiring block

/-- `releaseBlock` of what a sequence holds: placeholders are skipped. -/
def releasePtr : BlockPtr → WindowBlockManager
  | .block block => s.releaseBlock block toFront
  | .placeholder _ => s

/-- The first half of `claimBlock`: a block with an iterator leaves its queue. -/
def dequeue : WindowBlockManager :=
  if s.freeBlockIterators block then
    { s with
      freeQueues := update s.freeQueues (s.queueOf block) ((s.freeQueues (s.queueOf block)).erase block)
      freeBlockIterators := update s.freeBlockIterators block false
      numFreeBlocksPerLevel := update s.numFreeBlocksPerLevel (s.getCacheLevel block)
        (s.numFreeBlocksPerLevel (s.getCacheLevel block) - 1) }
  else s

variable (priority : Option RetentionPriority) (durationMs : Option ℕ)

def claimBlock : WindowBlockManager :=
  { (s.dequeue block).modifyBlock block fun b => { b with priority := priority.getD b.priority, durationMs } with
    expiringBlockHeap := s.expiringBlockHeap.erase block }

/-- One round of `refresh`: the block leaves the heap and, if it is free, moves to the default queue. -/
def expire : WindowBlockManager :=
  let moved :=
    if s.freeBlockIterators block then
      let queues := update s.freeQueues (s.queueOf block) ((s.freeQueues (s.queueOf block)).erase block)
      let default := (s.getCacheLevel block, kDefaultRetentionPriority)
      update queues default (queues default ++ [block])
    else s.freeQueues
  { s.modifyBlock block fun b => { b with priority := kDefaultRetentionPriority } with
    freeQueues := moved
    expiringBlockHeap := s.expiringBlockHeap.erase block }

/-- The order of the heap: a missing expiration time comes first. -/
def expirationRank : ℕ := (s.allBlocksById block).expirationTime.elim 0 (· + 1)

/-- `refresh`, for at most the given number of rounds. -/
def refreshFor : ℕ → WindowBlockManager → WindowBlockManager
  | 0, s => s
  | rounds + 1, s =>
    match s.expiringBlockHeap.argmin s.expirationRank with
    | none => s
    | some block => if s.time + 1 < s.expirationRank block then s else refreshFor rounds (s.expire block)

def refresh : WindowBlockManager := s.refreshFor s.expiringBlockHeap.length

/-! ### What the primitives leave alone -/

def lists : Dict ℕ GenerationRequest × Dict ℕ (List BlockPtr) := (s.sequences, s.allocatedBlocksPerSeq)

section Frame

variable (s : WindowBlockManager) (c : WindowConfig) (block otherBlock : BlockId) (ptr : BlockPtr)

@[simp] theorem events_modifyBlock : (s.modifyBlock block f).events = s.events :=
  rfl

@[simp] theorem lookupTree_incRefCount : (s.incRefCount ptr).lookupTree = s.lookupTree := by cases ptr <;> rfl

@[simp] theorem events_incRefCount : (s.incRefCount ptr).events = s.events := by cases ptr <;> rfl

@[simp] theorem events_setBlockKey (key : BlockKey) (isFull : Bool) :
    (s.setBlockKey block key isFull).events = s.events :=
  rfl

@[simp] theorem events_swapMemoryPoolBlockOffset : (s.swapMemoryPoolBlockOffset block otherBlock).events = s.events :=
  rfl

@[simp] theorem events_detachFromLookupNode : (s.detachFromLookupNode c block).events = s.events := by
  unfold detachFromLookupNode
  split <;> rfl

@[simp] theorem events_enqueue : (s.enqueue block toFront).events = s.events := rfl

@[simp] theorem events_startExpiring : (s.startExpiring block).events = s.events := by
  unfold startExpiring
  split
  · rfl
  · split <;> rfl

@[simp] theorem events_releaseBlock : (s.releaseBlock block toFront).events = s.events := by simp [releaseBlock]

@[simp] theorem lookupTree_dequeue : (s.dequeue block).lookupTree = s.lookupTree := by
  unfold dequeue
  split <;> rfl

@[simp] theorem events_dequeue : (s.dequeue block).events = s.events := by
  unfold dequeue
  split <;> rfl

@[simp] theorem lookupTree_claimBlock : (s.claimBlock block priority durationMs).lookupTree = s.lookupTree :=
  lookupTree_dequeue s block

@[simp] theorem events_claimBlock : (s.claimBlock block priority durationMs).events = s.events := by simp [claimBlock]

@[simp] theorem events_expire : (s.expire block).events = s.events := rfl

@[simp] theorem lists_modifyBlock : (s.modifyBlock block f).lists = s.lists := rfl

@[simp] theorem lists_record (event : PoolEvent) : (s.record event).lists = s.lists := rfl

@[simp] theorem lists_swapMemoryPoolBlockOffset : (s.swapMemoryPoolBlockOffset block otherBlock).lists = s.lists := rfl

@[simp] theorem lists_incRefCount : (s.incRefCount ptr).lists = s.lists := by cases ptr <;> rfl

@[simp] theorem lists_detachFromLookupNode : (s.detachFromLookupNode c block).lists = s.lists := by
  unfold detachFromLookupNode
  split <;> rfl

@[simp] theorem lists_startExpiring : (s.startExpiring block).lists = s.lists := by
  unfold startExpiring
  split
  · rfl
  · split <;> rfl

@[simp] theorem lists_releaseBlock : (s.releaseBlock block toFront).lists = s.lists := lists_startExpiring _ _

@[simp] theorem lists_dequeue : (s.dequeue block).lists = s.lists := by
  unfold dequeue
  split <;> rfl

@[simp] theorem lists_claimBlock : (s.claimBlock block priority durationMs).lists = s.lists := lists_dequeue s block

end Frame

end WindowBlockManager

end TrtLlm.BatchManager
