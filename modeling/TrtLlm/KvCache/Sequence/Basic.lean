import TrtLlm.KvCache.PageIndexConverter
import TrtLlm.KvCache.RadixTree.Match
import TrtLlm.KvCache.Storage.Basic

/-!
# The KV cache of one request

`_KVCache` keeps the blocks of one sequence: for every block and life cycle a page, which the cache locks while it is
active and merely holds while it is suspended. Three lengths move over the blocks: the committed tokens, the history and
the capacity. `_base_page_indices` mirrors the slot ids of the locked pages for the kernels.

The storage manager and the radix tree are surroundings: what they answer in a call is an argument of the call, so the
results hold whatever other requests do in between. Debug-only assertions (`NDEBUG or ..`), events, streams and
statistics are left out.
-/

namespace TrtLlm.KvCache

open List

abbrev SlotId := Nat

/-- An entry of `SeqBlock.pages` other than `None`: a `_PageHolder`, or a `_SharedPageLock`, which keeps the page in
the GPU slot `lock`. -/
structure BlockPage where
  committed : Bool
  lock : Option SlotId
deriving DecidableEq, Repr

namespace BlockPage

def isLock (p : BlockPage) : Bool := p.lock.isSome

def holder (p : BlockPage) : BlockPage := { p with lock := none }

end BlockPage

def basePageIndex (p : Option BlockPage) : Int := (p.bind BlockPage.lock).elim badPageIndex fun slot => (slot : Int)

structure SeqBlock where
  pages : LifeCycleId → Option BlockPage
  treeBlock : Bool

inductive CacheStatus where
  | active
  | suspended
  | closed
deriving DecidableEq, Repr

inductive CommitState where
  | allowed
  | virtualStop
  | userStop
deriving DecidableEq, Repr

/-- `_KVCache`; beam search is not implemented in the source, so there is one beam. `committedTokens` are tokens of any
type. -/
structure KVCache (τ : Type) where
  status : CacheStatus
  capacity : Nat
  historyLength : Nat
  commitState : CommitState
  blocks : List SeqBlock
  basePageIndices : LifeCycleId → List Int
  committedTokens : List τ
  numCommittedBlocks : Nat
  ssmBlock : Option BlockPage
  neverResumed : Bool
  enableSwaScratchReuse : Bool
  scratchSlots : LifeCycleId → List SlotId
  cudaStream : Bool

/-- The part of `KVCacheManager` that its caches read. The life cycles are those of a `LifeCycleRegistry`. -/
structure KVCacheManager where
  tokensPerBlock : Nat
  lifeCycles : List LifeCycle
  commitMinSnapshot : Bool := false
  allowSeqRebasing : Bool := true
  swaScratchReuse : Option Nat := none
  /-- Numerator and denominator of `_slot_util_frac_max`. -/
  slotUtilFracMax : LifeCycleId → Nat × Nat := fun _ => (1, 1)
  tokensPerBlock_pos : 0 < tokensPerBlock := by decide
  lifeCycles_nodup : lifeCycles.Nodup := by decide
  windows_pos : ∀ lc w, .attn lc ∈ lifeCycles → lc.windowSize = some w → 0 < w

inductive CacheError where
  | valueError (message : String)
  | logicError (message : String)
  | assertion (message : String)
  | indexError
  | attributeError
  /-- An exception of the radix tree other than `UselessBlockError`. -/
  | tree
  | storage (error : StorageError)
deriving DecidableEq, Repr

abbrev CacheM (τ : Type) := EStateM CacheError (KVCache τ)

namespace KVCacheManager

variable (M : KVCacheManager)

def size : Nat := M.lifeCycles.length

def lifeCycleIds : List LifeCycleId := range M.size

variable (lc : LifeCycleId)

def isSsm : Bool := M.lifeCycles[lc]? = some .ssm

def isAttention : Bool :=
  match M.lifeCycles[lc]? with
  | some (.attn _) => true
  | _ => false

def isWindowed : Bool :=
  match M.lifeCycles[lc]? with
  | some (.attn attn) => attn.windowSize.isSome
  | _ => false

def hasSsm : Bool := LifeCycle.ssm ∈ M.lifeCycles

def staleRange (historyLength : Nat) : HalfOpenRange :=
  match M.lifeCycles[lc]? with
  | some details => details.getStaleRange historyLength M.tokensPerBlock
  | none => ⟨0, 0⟩

/-- `_swa_scratch_max_rewind_len`. Scratch reuse is only ever enabled when the manager has it configured. -/
def maxRewindLen : Nat := M.swaScratchReuse.getD 0

end KVCacheManager

namespace KVCache

variable {τ : Type} (M : KVCacheManager) (s : KVCache τ) (ordinal : Nat) (lc : LifeCycleId)

def page : Option BlockPage := s.blocks[ordinal]?.bind fun block => block.pages lc

def isCommitted : Bool := s.blocks[ordinal]?.any SeqBlock.treeBlock

def numCommittedTokens : Nat := s.committedTokens.length

def scratchRangeAt (historyLength capacity : Nat) : HalfOpenRange :=
  if s.enableSwaScratchReuse then
    match M.lifeCycles[lc]? with
    | some details => computeScratchRange details historyLength capacity M.tokensPerBlock M.maxRewindLen
    | none => ⟨0, 0⟩
  else ⟨0, 0⟩

def scratchRange : HalfOpenRange := s.scratchRangeAt M lc s.historyLength s.capacity

def hasScratchSlots : Bool := M.lifeCycleIds.any fun lc => s.scratchSlots lc ≠ []

def setPage (p : Option BlockPage) : KVCache τ := { s with
    blocks := s.blocks.modify ordinal fun block =>
      { block with pages := fun l => if l = lc then p else block.pages l } }

def setTreeBlock (isSet : Bool) : KVCache τ :=
  { s with blocks := s.blocks.modify ordinal fun block => { block with treeBlock := isSet } }

def setBasePageIndex (index : Int) : KVCache τ := { s with
    basePageIndices := fun l =>
      if l = lc then (s.basePageIndices l).set ordinal index else s.basePageIndices l }

end KVCache

/-! ### Pages of a block -/

section Pages

variable {τ : Type}

def checkCache (condition : Bool) (error : CacheError) : CacheM τ PUnit := fun s =>
  if condition then .ok ⟨⟩ s else .error error s

def onlyWhen (condition : Bool) (m : CacheM τ PUnit) : CacheM τ PUnit := if condition then m else pure ⟨⟩

def assertCache (condition : Bool) : CacheM τ PUnit := checkCache condition (.assertion "")

/-- `beam_block[lc] = p` for a holder or `None`. A lock that was there loses its reference and resets its entry of the
index table when it is deleted. -/
def assignPage (ordinal : Nat) (lc : LifeCycleId) (p : Option BlockPage) : CacheM τ PUnit :=
  modify fun s =>
    if (s.page ordinal lc).any BlockPage.isLock then
      (s.setPage ordinal lc p).setBasePageIndex ordinal lc badPageIndex
    else s.setPage ordinal lc p

/-- `_SharedPageLock.__init__` as far as it writes the index table. -/
def writeLockedIndex (ordinal : Nat) (lc : LifeCycleId) (slot : SlotId) : CacheM τ PUnit := do
  let s ← get
  match (s.basePageIndices lc)[ordinal]? with
  | none => throw .indexError
  | some old =>
    set (s.setBasePageIndex ordinal lc slot)
    assertCache (old = badPageIndex)

/-- `beam_block[lc] = page.lock(..)` for a page in the GPU slot `slot`. -/
def lockPage (ordinal : Nat) (lc : LifeCycleId) (committed : Bool) (slot : SlotId) : CacheM τ PUnit := do
  writeLockedIndex ordinal lc slot
  modify fun s => s.setPage ordinal lc (some ⟨committed, some slot⟩)

end Pages

/-! ### Creation -/

/-- A block of the radix tree on the path of a match, with the life cycles it has a page for. -/
structure MatchedBlock (τ : Type) where
  tokens : List τ
  hasPage : LifeCycleId → Bool

/-- `ReuseMatch`. Only full blocks of the tree have a next block. -/
structure SequenceMatch (τ : Type) (tokensPerBlock : Nat) where
  blocks : List (MatchedBlock τ)
  numTokens : Nat
  full : ∀ block ∈ blocks.dropLast, block.tokens.length = tokensPerBlock
  length_le : ∀ block ∈ blocks, block.tokens.length ≤ tokensPerBlock

namespace KVCache

variable {τ : Type} (M : KVCacheManager)

def getMatchedTokens : List (MatchedBlock τ) → Nat → Option (List τ)
  | [], remaining => if remaining = 0 then some [] else none
  | block :: rest, remaining =>
    if 0 < remaining then
      (getMatchedTokens rest (remaining - min remaining block.tokens.length)).map (block.tokens.take remaining ++ ·)
    else none

def empty : KVCache τ where
  status := .suspended
  capacity := 0
  historyLength := 0
  commitState := .allowed
  blocks := []
  basePageIndices := fun _ => []
  committedTokens := []
  numCommittedBlocks := 0
  ssmBlock := none
  neverResumed := true
  enableSwaScratchReuse := M.swaScratchReuse.isSome
  scratchSlots := fun _ => []
  cudaStream := false

/-- The ordinals from which `_setup_for_reuse` and `_active_pages` take the pages of a life cycle. -/
def liveOrdinals (numBlocks : Nat) (stale : HalfOpenRange) : List Nat :=
  range stale.beg ++ range' stale.stop (numBlocks - stale.stop)

def setupForReuse (found : SequenceMatch τ M.tokensPerBlock) : Except CacheError (KVCache τ) := do
  let tokens ← match getMatchedTokens found.blocks found.numTokens with
    | some tokens => pure tokens
    | none => throw (.assertion "")
  let isHeld (ordinal : Nat) (lc : LifeCycleId) : Bool :=
    M.isAttention lc && ordinal ∈ liveOrdinals found.blocks.length (M.staleRange lc found.numTokens)
  -- `unwrap_optional` of the page of a matched block
  if M.lifeCycleIds.any fun lc =>
      M.isAttention lc && (liveOrdinals found.blocks.length (M.staleRange lc found.numTokens)).any fun ordinal =>
        !found.blocks[ordinal]?.any fun block => block.hasPage lc then
    throw (.valueError "Expected non-None value")
  let ssmHeld ← if M.hasSsm ∧ found.blocks ≠ [] then
      if M.lifeCycleIds.any fun lc => M.isSsm lc && !found.blocks.getLast?.any fun block => block.hasPage lc then
        throw (.assertion "Last matched block must have SSM snapshot after truncation")
      else pure true
    else pure false
  return { (empty M : KVCache τ) with
    capacity := found.numTokens
    historyLength := found.numTokens
    blocks := found.blocks.mapIdx fun ordinal _ =>
      ⟨fun lc => if isHeld ordinal lc then some ⟨true, none⟩ else none, true⟩
    basePageIndices := fun _ => replicate found.blocks.length badPageIndex
    committedTokens := tokens
    numCommittedBlocks := tokens.length / M.tokensPerBlock
    ssmBlock := if ssmHeld then some ⟨true, none⟩ else none }

def create (found : Option (SequenceMatch τ M.tokensPerBlock)) : Except CacheError (KVCache τ) :=
  match found with
  | none => .ok (empty M)
  | some found => setupForReuse M found

end KVCache

/-! ### Sanity -/

namespace KVCache

variable {τ : Type} (M : KVCacheManager)

/-- The assertions of `_check_sanity` about one entry of a block. -/
def checkSanityOfPage (s : KVCache τ) (ordinal : Nat) (lc : LifeCycleId) : Bool :=
  let holder := s.page ordinal lc
  let isCommitted := s.neverResumed || decide (ordinal < s.numCommittedBlocks)
  if M.isSsm lc then holder = none
  else
    (if ordinal ∈ M.staleRange lc s.historyLength then
      if isCommitted || s.commitState ≠ .allowed then holder = none
      else if ordinal ∈ s.scratchRangeAt M lc 0 s.capacity then true
      else match holder with
        | some p => !p.isLock
        | none => s.committedTokens.isEmpty || M.commitMinSnapshot
    else if ordinal ∈ s.scratchRange M lc then holder = none
    else holder.any fun p => p.isLock == decide (s.status = .active)) &&
    holder.all fun p => p.committed == isCommitted

/-- `_check_sanity`; the status is not `CLOSED` where it is called. -/
def checkSanity (s : KVCache τ) : Bool :=
  s.numCommittedTokens ≤ s.historyLength && s.historyLength ≤ s.capacity &&
  s.blocks.length = divUp s.capacity M.tokensPerBlock &&
  (range s.blocks.length).all (fun ordinal =>
    (s.neverResumed || decide (ordinal < s.numCommittedBlocks)) == s.isCommitted ordinal &&
    M.lifeCycleIds.all fun lc => s.checkSanityOfPage M ordinal lc) &&
  (!M.hasSsm || s.ssmBlock.all fun p =>
    if s.neverResumed then !p.isLock && p.committed else p.isLock && !p.committed)

end KVCache

/-! ### Resizing -/

/-- What the storage manager answers in `resize`: the slot ids of `new_gpu_slots` and those of the pages that
`batched_lock_to_gpu` brings back. -/
structure ResizeAnswers where
  newGpuSlots : Except StorageError (LifeCycleId → Nat → SlotId)
  lockToGpu : Except StorageError (Nat → LifeCycleId → SlotId)

namespace KVCache

variable {τ : Type} (M : KVCacheManager)

def shortcutSetCapacity (capacity : Nat) : CacheM τ Bool := fun s =>
  if divUp capacity M.tokensPerBlock = divUp s.capacity M.tokensPerBlock then .ok true { s with capacity := capacity }
  else .ok false s

def shortcutSetHistoryLength (historyLength : Nat) : CacheM τ Bool := fun s =>
  if M.lifeCycleIds.all fun lc =>
      !M.isWindowed lc || decide (M.staleRange lc historyLength = M.staleRange lc s.historyLength) then
    .ok true { s with historyLength := historyLength }
  else .ok false s

variable (s : KVCache τ)

def newlyStale (newHistoryLength : Nat) : List (Nat × LifeCycleId) :=
  if newHistoryLength = s.historyLength then []
  else
    (M.lifeCycleIds.filter M.isWindowed).flatMap fun lc =>
      let oldEnd := (M.staleRange lc s.historyLength).stop
      let new := M.staleRange lc newHistoryLength
      let first := max oldEnd new.beg
      (range' first (min s.blocks.length new.stop - first)).map fun ordinal => (ordinal, lc)

/-- Whether a block that goes stale is still held because it may be committed later. -/
def holdForCommit (ordinal : Nat) : Bool := !M.commitMinSnapshot && !s.isCommitted ordinal && s.commitState = .allowed

def unlockStaleBlock (entry : Nat × LifeCycleId) : CacheM τ PUnit := do
  let s ← get
  match s.page entry.1 entry.2 with
  | none => pure ⟨⟩
  | some p => do
      assertCache p.isLock
      assignPage entry.1 entry.2 (if s.holdForCommit M entry.1 then some p.holder else none)

/-- `_unlock_stale_blocks`. It returns the holders of the pages it unlocks. -/
def unlockStaleBlocks (newHistoryLength : Nat) : CacheM τ (List (Nat × LifeCycleId × BlockPage)) := do
  let s ← get
  let entries := s.newlyStale M newHistoryLength
  entries.forM (unlockStaleBlock M)
  return entries.filterMap fun entry => (s.page entry.1 entry.2).map fun p => (entry.1, entry.2, p.holder)

/-- `_lock_held_blocks`. `batched_lock_to_gpu` locks all pages or none. -/
def lockHeldBlocks (answer : Except StorageError (Nat → LifeCycleId → SlotId))
    (backup : List (Nat × LifeCycleId × BlockPage)) : CacheM τ PUnit :=
  match answer with
  | .error e => throw (.storage e)
  | .ok slotOf =>
    backup.forM fun entry => lockPage entry.1 entry.2.1 entry.2.2.committed (slotOf entry.1 entry.2.1)

/-- `del self._blocks[new_num_blocks:]`: the locks in the deleted blocks reset their entries of the index table. -/
def dropBlocks (newNumBlocks : Nat) : KVCache τ := { s with
    blocks := s.blocks.take newNumBlocks
    basePageIndices := fun lc => (s.basePageIndices lc).mapIdx fun ordinal index =>
      if newNumBlocks ≤ ordinal ∧ (s.page ordinal lc).any BlockPage.isLock then badPageIndex else index }

/-- The part of `resize` that deletes blocks. -/
def deleteBlocks (newNumBlocks : Nat) : CacheM τ PUnit := do
  modify fun s => s.dropBlocks newNumBlocks
  let s ← get
  assertCache (M.lifeCycleIds.all fun lc => ((s.basePageIndices lc).drop newNumBlocks).all (· = badPageIndex))
  modify fun s => { s with basePageIndices := fun lc => (s.basePageIndices lc).take newNumBlocks }

/-- `math.ceil(num_scratch_blocks * frac_max)`. -/
def neededScratchSlots (lc : LifeCycleId) (historyLength capacity : Nat) : Nat :=
  divUp ((s.scratchRangeAt M lc historyLength capacity).length * (M.slotUtilFracMax lc).1) (M.slotUtilFracMax lc).2

/-- `delta_cnt` of `_take_excess_scratch_slots`. -/
def deltaScratchSlots (lc : LifeCycleId) (historyLength capacity : Nat) : Int :=
  (s.neededScratchSlots M lc historyLength capacity : Int) - (s.scratchSlots lc).length

/-- `_take_excess_scratch_slots`: the slots above the need leave the cache, the last first. -/
def takeExcessScratchSlots (capacity historyLength : Nat) : CacheM τ (LifeCycleId → List SlotId) := do
  let s ← get
  let needed lc := s.neededScratchSlots M lc historyLength capacity
  set { s with scratchSlots := fun lc => (s.scratchSlots lc).take (needed lc) }
  return fun lc => ((s.scratchSlots lc).drop (needed lc)).reverse

def recoverExcessScratchSlots (excess : LifeCycleId → List SlotId) : CacheM τ PUnit :=
  modify fun s => { s with scratchSlots := fun lc => s.scratchSlots lc ++ excess lc }

/-- The new blocks of a life cycle that get no page of their own: the scratch blocks, and without scratch reuse the
stale ones. -/
def withoutPage (lc : LifeCycleId) (historyLength capacity : Nat) : HalfOpenRange :=
  if s.enableSwaScratchReuse then s.scratchRangeAt M lc historyLength capacity else M.staleRange lc historyLength

/-- `num_new_slots`. The history is within the capacity here, so no difference is negative. -/
def numNewSlots (oldNumBlocks newNumBlocks historyLength capacity : Nat) (lc : LifeCycleId) : Nat :=
  if !M.isAttention lc then 0
  else if s.enableSwaScratchReuse then
    (newNumBlocks - oldNumBlocks) - ((s.scratchRangeAt M lc historyLength capacity).intersect ⟨oldNumBlocks, newNumBlocks⟩).length
  else
    let stale := M.staleRange lc historyLength
    if oldNumBlocks < stale.beg then (stale.beg - oldNumBlocks) + (newNumBlocks - stale.stop)
    else newNumBlocks - max stale.stop oldNumBlocks

/-- `storage.new_gpu_slots`, called only if a life cycle needs slots; `none` is `OutOfPagesError`. -/
def newGpuSlots (answer : Except StorageError (LifeCycleId → Nat → SlotId)) (net : LifeCycleId → Int) :
    CacheM τ (Option (LifeCycleId → List SlotId)) :=
  if M.lifeCycleIds.any fun lc => 0 < net lc then
    match answer with
    | .ok supply => pure (some fun lc => (range (net lc).toNat).map (supply lc))
    | .error .outOfPages => pure none
    | .error e => throw (.storage e)
  else pure (some fun _ => [])

def pagedLifeCycles (historyLength capacity ordinal : Nat) : List LifeCycleId :=
  M.lifeCycleIds.filter fun lc => M.isAttention lc && ordinal ∉ s.withoutPage M lc historyLength capacity

/-- One new block: a slot for each life cycle is popped, and the page in it locked. -/
def addBlock (historyLength capacity : Nat) (slots : LifeCycleId → List SlotId) (ordinal : Nat) :
    CacheM τ (LifeCycleId → List SlotId) := do
  let s ← get
  let paged := s.pagedLifeCycles M historyLength capacity ordinal
  checkCache (paged.all fun lc => slots lc ≠ []) .indexError
  let slotOf lc := (slots lc).getLastD 0
  paged.forM fun lc => writeLockedIndex ordinal lc (slotOf lc)
  modify fun s =>
    { s with blocks := s.blocks ++ [⟨fun lc => if lc ∈ paged then some ⟨false, some (slotOf lc)⟩ else none, false⟩] }
  return fun lc => if lc ∈ paged then (slots lc).dropLast else slots lc

/-- The new slots, with those that the scratch range gives up, are distributed: scratch slots first, then a page for
each new block. -/
def distributeSlots (capacity historyLength : Nat) (excess : LifeCycleId → List SlotId) (delta : LifeCycleId → Int)
    (numNew : LifeCycleId → Nat) (newSlots : LifeCycleId → List SlotId) : CacheM τ PUnit := do
  let s ← get
  let oldNumBlocks := divUp s.capacity M.tokensPerBlock
  let newNumBlocks := divUp capacity M.tokensPerBlock
  let all lc := newSlots lc ++ excess lc
  let kept lc := (all lc).take ((all lc).length - (-((numNew lc : Int) + delta lc)).toNat)
  assertCache (M.lifeCycleIds.all fun lc => (kept lc).length = numNew lc + (delta lc).toNat)
  modify fun s =>
    { s with scratchSlots := fun lc => s.scratchSlots lc ++ ((kept lc).drop (numNew lc)).reverse }
  assertCache (M.lifeCycleIds.all fun lc => (s.basePageIndices lc).length = oldNumBlocks)
  modify fun s =>
    { s with basePageIndices := fun lc =>
        s.basePageIndices lc ++ replicate (newNumBlocks - oldNumBlocks) badPageIndex }
  let left ← (range' oldNumBlocks (newNumBlocks - oldNumBlocks)).foldlM
    (addBlock M historyLength capacity) fun lc => (kept lc).take (numNew lc)
  assertCache (M.lifeCycleIds.all fun lc => left lc = [])

variable (answers : ResizeAnswers)

/-- The part of `resize` that adds blocks; `false` is `OutOfPagesError`. -/
def growBlocks (capacity historyLength : Nat) (excess : LifeCycleId → List SlotId) (delta : LifeCycleId → Int)
    (backup : List (Nat × LifeCycleId × BlockPage)) : CacheM τ Bool := do
  let s ← get
  let oldNumBlocks := divUp s.capacity M.tokensPerBlock
  let newNumBlocks := divUp capacity M.tokensPerBlock
  let numNew := s.numNewSlots M oldNumBlocks newNumBlocks historyLength capacity
  onlyWhen (!s.enableSwaScratchReuse) <| assertCache <| M.lifeCycleIds.all fun lc =>
    !M.isAttention lc || !decide (oldNumBlocks < (M.staleRange lc historyLength).beg) ||
      decide ((M.staleRange lc historyLength).stop ≤ newNumBlocks)
  match ← newGpuSlots M answers.newGpuSlots fun lc => (numNew lc : Int) + delta lc with
  | none => do
      recoverExcessScratchSlots excess
      lockHeldBlocks answers.lockToGpu backup
      return false
  | some newSlots => do
      distributeSlots M capacity historyLength excess delta numNew newSlots
      return true

def setLengths (capacity historyLength : Nat) : CacheM τ PUnit :=
  modify fun s => { s with capacity := capacity, historyLength := historyLength }

/-- The end of `resize` when there are fewer blocks than before. -/
def shrinkTo (capacity historyLength : Nat) : CacheM τ Bool := do
  let s ← get
  checkCache (!s.hasScratchSlots M) (.assertion "Cannot shrink while scratch slots exist")
  deleteBlocks M (divUp capacity M.tokensPerBlock)
  let _ ← takeExcessScratchSlots M capacity historyLength
  setLengths capacity historyLength
  return true

/-- The end of `resize` when there are at least as many blocks as before. -/
def growTo (capacity historyLength : Nat) (backup : List (Nat × LifeCycleId × BlockPage)) : CacheM τ Bool := do
  let s ← get
  let excess ← takeExcessScratchSlots M capacity historyLength
  let grown ← growBlocks M answers capacity historyLength excess
    (fun lc => s.deltaScratchSlots M lc historyLength capacity) backup
  onlyWhen grown (setLengths capacity historyLength)
  return grown

/-- The part of `resize` after the shortcuts. -/
def resizeBlocks (capacity historyLength : Nat) : CacheM τ Bool := do
  let backup ← unlockStaleBlocks M historyLength
  let s ← get
  if divUp capacity M.tokensPerBlock < divUp s.capacity M.tokensPerBlock then shrinkTo M capacity historyLength
  else growTo M answers capacity historyLength backup

/-- The two shortcuts together. The capacity stays changed when only the second one fails. -/
def shortcuts (capacity historyLength : Nat) : CacheM τ Bool := do
  if ← shortcutSetCapacity M capacity then shortcutSetHistoryLength M historyLength else pure false

def resizeChecked (capacity historyLength : Nat) : CacheM τ Bool := do
  let s ← get
  if s.enableSwaScratchReuse then resizeBlocks M answers capacity historyLength
  else do
    if ← shortcuts M capacity historyLength then pure true else resizeBlocks M answers capacity historyLength

def resize (newCapacity newHistoryLength : Option Nat) : CacheM τ Bool := do
  let s ← get
  assertCache (s.status = .active)
  assertCache (divUp s.capacity M.tokensPerBlock = s.blocks.length)
  let capacity := newCapacity.getD s.capacity
  let historyLength := newHistoryLength.getD s.historyLength
  checkCache (s.historyLength ≤ historyLength) (.valueError "History length cannot be decreased")
  checkCache (historyLength ≤ capacity) (.valueError "History length cannot be greater than capacity")
  let oldCapacity := s.capacity
  let minHistoryLength := oldCapacity - M.maxRewindLen
  onlyWhen (s.enableSwaScratchReuse ∧ capacity ≠ oldCapacity) <|
    checkCache (minHistoryLength ≤ historyLength ∧ historyLength ≤ oldCapacity) <| .assertion <|
      s!"SWA scratch requires old_capacity - max_rewind_len ({minHistoryLength}) <= " ++
      s!"history_length ({historyLength}) <= old_capacity ({oldCapacity})"
  resizeChecked M answers capacity historyLength

def setHistoryLength (historyLength : Nat) : CacheM τ PUnit := do
  let success ← resize M answers none (some historyLength)
  assertCache success

end KVCache

/-! ### Committing -/

/-- How `Block(tokens, prev)` ends: a new block; the block of a `UselessBlockError`, full or not, with a page that
covers the tokens for some life cycles; or another exception. -/
inductive TreeAnswer where
  | new
  | existing (isFull : Bool) (covers : LifeCycleId → Bool)
  | raises

/-- What the surroundings answer while one block is committed. `ssmCovered` tells whether the tree block already has
the SSM snapshot. -/
structure BlockAnswers where
  tree : TreeAnswer
  lockToGpu : Except StorageError (LifeCycleId → SlotId)
  ssmCovered : Bool

structure CommitAnswers where
  resize : ResizeAnswers
  block : Nat → BlockAnswers

namespace KVCache

variable {τ : Type} (M : KVCacheManager) (ordinal : Nat)

def takeUncommittedPage (lc : LifeCycleId) : CacheM τ PUnit := do
  let s ← get
  match s.page ordinal lc with
  | none => pure ⟨⟩
  | some p => do
      assertCache (!p.committed)
      assignPage ordinal lc none

/-- The page that `convert_to_committed` moved into the tree takes the place of the uncommitted one. -/
def putCommittedPage (lc : LifeCycleId) (old : Option BlockPage) : CacheM τ PUnit :=
  match old with
  | none => pure ⟨⟩
  | some p =>
    match p.lock with
    | some slot => lockPage ordinal lc true slot
    | none => assignPage ordinal lc (some ⟨true, none⟩)

/-- `_commit_block` for a new block of the tree. -/
def commitToNewBlock : CacheM τ PUnit := do
  let s ← get
  let lcs := M.lifeCycleIds.filter fun lc => !M.isSsm lc
  lcs.forM (takeUncommittedPage ordinal)
  lcs.forM fun lc => putCommittedPage ordinal lc (s.page ordinal lc)
  modify fun s => { (s.setTreeBlock ordinal true) with numCommittedBlocks := ordinal + 1 }

/-- One life cycle of the rebase loop: the own page goes into the tree if there is none; otherwise it is unlocked and
the other one will be locked. -/
def rebasePage (covers : LifeCycleId → Bool) (lc : LifeCycleId) : CacheM τ PUnit := do
  let s ← get
  match s.page ordinal lc with
  | none => pure ⟨⟩
  | some p =>
    if covers lc then onlyWhen p.isLock (assignPage ordinal lc (some p.holder))
    else do
      assignPage ordinal lc none
      -- only an `UncommittedPage` can be converted
      checkCache (!p.committed) .attributeError
      putCommittedPage ordinal lc (some p)

variable (answers : BlockAnswers)

/-- `_commit_block` when another request has committed the same full block. -/
def rebaseBlock (covers : LifeCycleId → Bool) (ordinal : Nat) : CacheM τ PUnit := do
  let s ← get
  let lcs := M.lifeCycleIds.filter fun lc => !M.isSsm lc
  lcs.forM (rebasePage ordinal covers)
  match answers.lockToGpu with
  | .error e => throw (.storage e)
  | .ok slotOf => do
      (lcs.filter fun lc => covers lc && (s.page ordinal lc).isSome).forM fun lc =>
        lockPage ordinal lc true (slotOf lc)
      modify fun s => { (s.setTreeBlock ordinal true) with numCommittedBlocks := ordinal + 1 }

def snapshotSsmToTreeBlock (covered move : Bool) : CacheM τ PUnit := onlyWhen (!covered) do
    let s ← get
    assertCache (s.ssmBlock.any BlockPage.isLock)
    onlyWhen move do
      assertCache (s.ssmBlock.all fun p => !p.committed)
      set { s with ssmBlock := none }

/-- The stale pages of a block that has just been committed are released. -/
def releaseStalePages : CacheM τ PUnit := do
  let s ← get
  onlyWhen (s.isCommitted ordinal) <|
    (M.lifeCycleIds.filter fun lc => M.isAttention lc && ordinal ∈ M.staleRange lc s.historyLength).forM fun lc =>
      assignPage ordinal lc none

def releaseStaleHolder (entry : Nat × LifeCycleId) : CacheM τ PUnit := do
  let s ← get
  match s.blocks[entry.1]? with
  | none => throw .indexError
  | some block => do
      assertCache (!block.treeBlock)
      match block.pages entry.2 with
      | none => pure ⟨⟩
      | some p => do
          assertCache (!p.isLock)
          assignPage entry.1 entry.2 none

def onStopCommitting : CacheM τ PUnit := do
  let s ← get
  let entries := (M.lifeCycleIds.filter fun lc => !M.isSsm lc).flatMap fun lc =>
    let stale := M.staleRange lc s.historyLength
    let first := max stale.beg s.numCommittedBlocks
    (range' first (stale.stop - first)).map fun ordinal => (ordinal, lc)
  entries.forM releaseStaleHolder

/-- The tree block before `ordinal`: the root, or `_get_tree_block(ordinal - 1)`. -/
def checkPrevTreeBlock : CacheM τ PUnit := do
  let s ← get
  onlyWhen (0 < ordinal) (assertCache (s.isCommitted (ordinal - 1)))

/-- The branches of `_commit_block`; it returns `did_commit`. -/
def commitTreeBlock (ordinal : Nat) (isFull : Bool) : CacheM τ Bool :=
  match answers.tree with
  | .raises => throw .tree
  | .new => do
      commitToNewBlock M ordinal
      return true
  | .existing treeBlockIsFull covers =>
    if treeBlockIsFull && M.allowSeqRebasing && isFull then do
      rebaseBlock M answers covers ordinal
      return true
    else do
      modify fun s => { s with commitState := .virtualStop }
      return false

/-- The end of `_commit_block`. -/
def finishCommit (isLast : Bool) : CacheM τ PUnit := do
  releaseStalePages M ordinal
  let s ← get
  onlyWhen (isLast || s.commitState = .virtualStop) do
    set { s with commitState := .userStop }
    onStopCommitting M

def commitBlock (ordinal : Nat) (isLast commitSsm moveSsm : Bool) : CacheM τ PUnit := do
  let s ← get
  assertCache (s.commitState = .allowed)
  assertCache (ordinal = s.numCommittedBlocks)
  checkCache (ordinal < s.blocks.length) .indexError
  let isFull := ordinal * M.tokensPerBlock + M.tokensPerBlock ≤ s.numCommittedTokens
  checkCache (isLast || isFull) (.logicError "Cannot commit block that is not full except last block")
  checkPrevTreeBlock ordinal
  let didCommit ← commitTreeBlock M answers ordinal isFull
  onlyWhen (didCommit && commitSsm) (snapshotSsmToTreeBlock answers.ssmCovered moveSsm)
  finishCommit M ordinal isLast

/-- `_snapshot_partial_block_to_tree`. The pages of the cache are only copied. -/
def snapshotPartialBlockToTree (ordinal : Nat) (commitSsm : Bool) : CacheM τ PUnit := do
  checkPrevTreeBlock ordinal
  let s ← get
  match answers.tree with
  | .raises => throw .tree
  | _ => do
      checkCache (ordinal < s.blocks.length) .indexError
      onlyWhen commitSsm (snapshotSsmToTreeBlock answers.ssmCovered false)

def stopCommitting (answers : Nat → BlockAnswers) : CacheM τ PUnit := do
  let s ← get
  assertCache (s.status ≠ .closed)
  match s.commitState with
  | .userStop => pure ⟨⟩
  | .virtualStop => set { s with commitState := .userStop }
  | .allowed =>
    if s.numCommittedTokens % M.tokensPerBlock ≠ 0 then do
      let ordinal := s.numCommittedTokens / M.tokensPerBlock
      commitBlock M (answers ordinal) ordinal true false false
    else do
      set { s with commitState := .userStop }
      onStopCommitting M

/-- The loop of `commit` over the full blocks; it ends early when a block could not be committed. -/
def commitFullBlocks (answers : Nat → BlockAnswers) (ssmOrdinal : Nat) (isEnd : Bool) : List Nat → CacheM τ PUnit
  | [] => pure ⟨⟩
  | ordinal :: rest => do
      commitBlock M (answers ordinal) ordinal false (M.commitMinSnapshot && M.hasSsm && decide (ordinal = ssmOrdinal)) isEnd
      let s ← get
      onlyWhen (s.commitState = .allowed) (commitFullBlocks answers ssmOrdinal isEnd rest)

/-- The part of `commit` after the history is updated. -/
def commitBlocks (answers : Nat → BlockAnswers) (isEnd : Bool) : CacheM τ PUnit := do
  let s ← get
  let numFullBlocks := s.numCommittedTokens / M.tokensPerBlock
  let hasPartialSnapshot := M.commitMinSnapshot && decide (s.numCommittedTokens % M.tokensPerBlock ≠ 0)
  commitFullBlocks M answers ((s.numCommittedTokens - 1) / M.tokensPerBlock) isEnd
    (range' s.numCommittedBlocks (numFullBlocks - s.numCommittedBlocks))
  let s ← get
  onlyWhen (hasPartialSnapshot && s.commitState = .allowed) <|
    if isEnd then commitBlock M (answers numFullBlocks) numFullBlocks true M.hasSsm M.hasSsm
    else snapshotPartialBlockToTree (answers numFullBlocks) numFullBlocks M.hasSsm
  let s ← get
  onlyWhen (isEnd && s.commitState ≠ .userStop) (stopCommitting M answers)

def commit (answers : CommitAnswers) (tokens : List τ) (isEnd : Bool) : CacheM τ PUnit :=
  if tokens.isEmpty then onlyWhen isEnd (stopCommitting M answers.block)
  else do
    let s ← get
    assertCache (s.status = .active)
    checkCache (s.commitState ≠ .userStop) (.logicError "Cannot commit tokens after stop_committing()")
    onlyWhen M.commitMinSnapshot <|
      checkCache (s.historyLength = s.numCommittedTokens ∨
          s.historyLength = s.numCommittedTokens + tokens.length)
        (.assertion "commit_min_snapshot requires commit() to start or end at history_length")
    let s := { s with committedTokens := s.committedTokens ++ tokens }
    set s
    if s.commitState = .virtualStop then onlyWhen isEnd (set { s with commitState := .userStop })
    else do
      onlyWhen (s.historyLength < s.numCommittedTokens) (setHistoryLength M answers.resize s.numCommittedTokens)
      commitBlocks M answers.block isEnd

end KVCache

/-! ### Suspending and resuming -/

/-- What the surroundings answer in `resume`: whether a stream is given, whether the utilization allows it, the slot ids
of `new_gpu_slots` and of the locked pages, where no ordinal stands for the SSM page. -/
structure ResumeAnswers where
  cudaStream : Bool
  utilizationOk : Bool
  newGpuSlots : Except StorageError (LifeCycleId → Nat → SlotId)
  lockToGpu : Except StorageError (Option Nat → LifeCycleId → SlotId)

namespace KVCache

variable {τ : Type} (M : KVCacheManager)

/-- The entries of `_blocks` that `_active_pages` visits, scratch blocks included. -/
def liveEntries (s : KVCache τ) : List (Nat × LifeCycleId) :=
  (M.lifeCycleIds.filter fun lc => !M.isSsm lc).flatMap fun lc =>
    (liveOrdinals s.blocks.length (M.staleRange lc s.historyLength)).map fun ordinal => (ordinal, lc)

/-- `_active_pages` without the SSM page, which is there whenever `_ssm_blocks` has one. -/
def activePages : CacheM τ (List (Nat × LifeCycleId)) := do
  let s ← get
  assertCache ((s.liveEntries M).all fun entry =>
    decide (entry.1 ∈ s.scratchRange M entry.2) == (s.page entry.1 entry.2).isNone)
  return (s.liveEntries M).filter fun entry => decide (entry.1 ∉ s.scratchRange M entry.2)

def suspendPage (entry : Nat × LifeCycleId) : CacheM τ PUnit := do
  let s ← get
  match s.page entry.1 entry.2 with
  | none => throw (.assertion "")
  | some p => do
      assertCache p.isLock
      assignPage entry.1 entry.2 (some p.holder)

def suspend : CacheM τ PUnit := do
  let s ← get
  assertCache (s.status = .active)
  assertCache (s.checkSanity M)
  let entries ← activePages M
  entries.forM suspendPage
  assertCache (!M.hasSsm || s.ssmBlock.all BlockPage.isLock)
  modify fun s =>
    { s with ssmBlock := s.ssmBlock.map BlockPage.holder, scratchSlots := fun _ => [], status := .suspended }

/-- Whether the last block is only partly matched, so that the first `resume` makes a private copy of it. -/
def hasPartial (s : KVCache τ) : Bool := s.neverResumed && decide (s.numCommittedTokens % M.tokensPerBlock ≠ 0)

/-- The slots that `resume` needs for deferred copies. -/
def numDeferredSlots (s : KVCache τ) (lc : LifeCycleId) : Nat :=
  if s.neverResumed && (M.isSsm lc || s.hasPartial M) then 1 else 0

def resumePage (slotOf : Option Nat → LifeCycleId → SlotId) (entry : Nat × LifeCycleId) : CacheM τ PUnit := do
  let s ← get
  match s.page entry.1 entry.2 with
  | none => throw (.assertion "")
  | some p => lockPage entry.1 entry.2 p.committed (slotOf entry.1 entry.2)

def replaceByCopy (ordinal : Nat) (slotOf : LifeCycleId → SlotId) (lc : LifeCycleId) : CacheM τ PUnit := do
  assignPage ordinal lc none
  lockPage ordinal lc false (slotOf lc)

def deferredCopies (slotOf : LifeCycleId → SlotId) : CacheM τ PUnit := do
  let s ← get
  let lastOrdinal := (s.numCommittedTokens - 1) / M.tokensPerBlock
  let lcs := M.lifeCycleIds.filter fun lc => !M.isSsm lc
  onlyWhen (s.hasPartial M) (assertCache (lcs.all fun lc => (s.page lastOrdinal lc).any BlockPage.isLock))
  onlyWhen M.hasSsm (assertCache (s.numCommittedTokens = 0 || s.ssmBlock.any BlockPage.isLock))
  onlyWhen (s.hasPartial M) do
    lcs.forM (replaceByCopy lastOrdinal slotOf)
    modify fun s => s.setTreeBlock lastOrdinal false
  onlyWhen M.hasSsm <| modify fun s =>
    { s with ssmBlock := some ⟨false, some (slotOf (M.lifeCycles.idxOf .ssm))⟩ }

/-- `resume` once the new slots are there. -/
def lockActivePages (lockToGpu : Except StorageError (Option Nat → LifeCycleId → SlotId))
    (deferred : LifeCycleId → SlotId) : CacheM τ Bool := do
  let entries ← activePages M
  let s ← get
  assertCache (entries.all fun entry => (s.page entry.1 entry.2).any fun p => !p.isLock)
  assertCache (!M.hasSsm || s.ssmBlock.all fun p => !p.isLock)
  match lockToGpu with
  | .error .outOfPages => return false
  | .error e => throw (.storage e)
  | .ok slotOf => do
      entries.forM (resumePage slotOf)
      modify fun s =>
        { s with ssmBlock := s.ssmBlock.map fun p => ⟨p.committed, some (slotOf none (M.lifeCycles.idxOf .ssm))⟩ }
      onlyWhen s.neverResumed (deferredCopies M deferred)
      modify fun s => { s with neverResumed := false, status := .active }
      return true

def resume (answers : ResumeAnswers) : CacheM τ Bool := do
  let s ← get
  assertCache (s.status = .suspended)
  onlyWhen answers.cudaStream (set { s with cudaStream := true })
  if !answers.utilizationOk then return false
  else do
    checkCache (s.cudaStream || answers.cudaStream) (.assertion "cuda_stream is never set")
    let excess ← takeExcessScratchSlots M s.capacity s.historyLength
    assertCache (M.lifeCycleIds.all fun lc => excess lc = [])
    let net lc := (s.numDeferredSlots M lc : Int) + s.deltaScratchSlots M lc s.historyLength s.capacity
    match ← newGpuSlots M answers.newGpuSlots net with
    | none => return false
    | some slots => do
        modify fun s =>
          { s with scratchSlots := fun lc =>
              s.scratchSlots lc ++ (slots lc).take ((slots lc).length - s.numDeferredSlots M lc) }
        lockActivePages M answers.lockToGpu fun lc => (slots lc).getLastD 0

def close (answers : Nat → BlockAnswers) : CacheM τ PUnit := do
  let s ← get
  onlyWhen (s.status ≠ .closed) do
    stopCommitting M answers
    modify fun s =>
      { s.dropBlocks 0 with
        scratchSlots := fun _ => []
        ssmBlock := if M.hasSsm then none else s.ssmBlock
        status := .closed }

end KVCache

inductive CacheOp (τ : Type) where
  | resize (answers : ResizeAnswers) (capacity historyLength : Option Nat)
  | setHistoryLength (answers : ResizeAnswers) (historyLength : Nat)
  | commit (answers : CommitAnswers) (tokens : List τ) (isEnd : Bool)
  | stopCommitting (answers : Nat → BlockAnswers)
  | suspend
  | resume (answers : ResumeAnswers)
  | close (answers : Nat → BlockAnswers)

namespace KVCache

variable {τ : Type} (M : KVCacheManager)

def call : CacheOp τ → CacheM τ PUnit
  | .resize answers capacity historyLength => discard (resize M answers capacity historyLength)
  | .setHistoryLength answers historyLength => setHistoryLength M answers historyLength
  | .commit answers tokens isEnd => commit M answers tokens isEnd
  | .stopCommitting answers => stopCommitting M answers
  | .suspend => suspend M
  | .resume answers => discard (resume M answers)
  | .close answers => close M answers

def after (op : CacheOp τ) (s : KVCache τ) : KVCache τ :=
  match call M op s with
  | .ok _ t => t
  | .error _ t => t

/-- The caches that a run of calls goes through, the first one included. -/
def states : List (CacheOp τ) → KVCache τ → List (KVCache τ)
  | [], s => [s]
  | op :: ops, s => s :: states ops (after M op s)

end KVCache

end TrtLlm.KvCache
