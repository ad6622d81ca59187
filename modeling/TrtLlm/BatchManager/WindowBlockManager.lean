import TrtLlm.BatchManager.Pool

/-!
# The operations of a window's block manager

Admission of a batch of sequences in two phases, growth by one token, storing blocks for reuse, release, pinning,
replacing a shared block and truncation, for the manager of one window.
-/

namespace TrtLlm.BatchManager

open Function

/-! ### Finding blocks in the lookup tree -/

/-- `findPartiallyMatchingNodes`: the children that share a first token with the key, longest match first, each
with the number of tokens it shares. -/
def findPartiallyMatchingNodes (lookupTree : Trie BlockKey ℕ BlockId) (node : List BlockKey) (key : BlockKey) :
    List (ℕ × List BlockKey) :=
  if key.supportsPartialMatching then
    (((lookupTree.nextKeys node).map fun nodeKey => (key.numMatchingTokens nodeKey, nodeKey :: node)).filter
      fun candidate => decide (0 < candidate.1)).insertionSort fun a b => b.1 ≤ a.1
  else []

/-- A match of `findReusableBlockMatches`; without a block it is a traversal-only step over a missing anchor. -/
structure ReuseMatch where
  block : Option BlockId
  numMatchedTokens : ℕ
  isPartialMatch : Bool
deriving DecidableEq

structure ReuseMatchResult where
  reuseMatches : List ReuseMatch
  totalMatchedTokens : ℕ

structure MatchProgress where
  candidateMatches : List ReuseMatch
  candidateMatchedTokens : ℕ
  latestMissingAnchorEndToken : ℕ
  result : ReuseMatchResult

namespace MatchProgress

def start : MatchProgress := ⟨[], 0, 0, [], 0⟩

def updateSafePrefix (c : WindowConfig) (progress : MatchProgress) : MatchProgress :=
  if c.isSWA = false ∨ progress.latestMissingAnchorEndToken = 0
      ∨ progress.latestMissingAnchorEndToken + c.windowSize ≤ progress.candidateMatchedTokens then
    { progress with result := ⟨progress.candidateMatches, progress.candidateMatchedTokens⟩ }
  else progress

def push (c : WindowConfig) (block : BlockId) (numMatchedTokens : ℕ) (isPartialMatch : Bool)
    (progress : MatchProgress) : MatchProgress :=
  updateSafePrefix c { progress with
      candidateMatches := progress.candidateMatches ++ [⟨some block, numMatchedTokens, isPartialMatch⟩]
      candidateMatchedTokens := progress.candidateMatchedTokens + numMatchedTokens }

def pushMissing (c : WindowConfig) (numMatchedTokens : ℕ) (progress : MatchProgress) : MatchProgress :=
  updateSafePrefix c { progress with
      candidateMatches := progress.candidateMatches ++ [⟨none, numMatchedTokens, false⟩]
      candidateMatchedTokens := progress.candidateMatchedTokens + numMatchedTokens
      latestMissingAnchorEndToken :=
        max progress.latestMissingAnchorEndToken (progress.candidateMatchedTokens + numMatchedTokens) }

end MatchProgress

namespace WindowBlockManager

variable (s : WindowBlockManager) (c : WindowConfig)

/-- The longest partial match whose block may be used: copied, or taken over because nobody else needs it. -/
def findPartialMatch (node : List BlockKey) (key : BlockKey) : Option (ℕ × BlockId) :=
  (findPartiallyMatchingNodes s.lookupTree node key).findSome? fun candidate =>
    (s.lookupTree.getValue candidate.2 c.windowSize).bind fun block =>
      if c.copyOnPartialReuse || (!s.hasRefs (.block block) && s.isLeaf block) then some (candidate.1, block) else none

/-- The loop of `findReusableBlockMatches` from `node` on. -/
def findReusableBlockMatchesFrom (s : WindowBlockManager) (c : WindowConfig) (maxMatchedTokens : ℕ) :
    List BlockKey → List BlockKey → MatchProgress → MatchProgress
  | [], _, progress => progress
  | key :: keys, node, progress =>
    if key.uniqueTokens = [] then progress
    else
      match s.lookupTree.findMatchingNode node key with
      | some next =>
        if maxMatchedTokens < progress.candidateMatchedTokens + key.uniqueTokens.length then progress
        else
          match s.lookupTree.getValue next c.windowSize with
          | some block =>
            findReusableBlockMatchesFrom s c maxMatchedTokens keys next
              (progress.push c block key.uniqueTokens.length (!(s.allBlocksById block).isFull))
          | none =>
            if c.isSWA then
              findReusableBlockMatchesFrom s c maxMatchedTokens keys next (progress.pushMissing c key.uniqueTokens.length)
            else progress
      | none =>
        if c.enablePartialReuse then
          match s.findPartialMatch c node key with
          | some (numMatchedTokens, block) =>
            if progress.candidateMatchedTokens + numMatchedTokens ≤ maxMatchedTokens then
              progress.push c block numMatchedTokens true
            else progress
          | none => progress
        else progress

def findReusableBlockMatches (blockKeys : List BlockKey) (maxMatchedTokens : ℕ) : ReuseMatchResult :=
  (s.findReusableBlockMatchesFrom c maxMatchedTokens blockKeys [] MatchProgress.start).result

/-- `findMatchingBlock` from the node of a block: the number of matched tokens and the block. -/
def findMatchingBlock (node : List BlockKey) (key : BlockKey) : Option (ℕ × BlockId) :=
  if key.uniqueTokens = [] then none
  else
    match s.lookupTree.findMatchingNode node key with
    | some next => (s.lookupTree.getValue next c.windowSize).map fun block => (key.uniqueTokens.length, block)
    | none => if c.enablePartialReuse then s.findPartialMatch c node key else none

/-! ### Free blocks -/

/-- The offload path of `getFreeBlock`: the cached block keeps its content in the secondary slot. -/
def offloadInto (block offloadBlock : BlockId) : WindowBlockManager :=
  ((((s.claimBlock block none none).claimBlock offloadBlock none none).swapMemoryPoolBlockOffset block
    offloadBlock).record (.offload block offloadBlock)).releaseBlock block false

/-- The end of `getFreeBlock`: the block leaves the tree and its queue. -/
def takeBlock (block : BlockId) (priority : RetentionPriority) (durationMs : Option ℕ) : WindowBlockManager :=
  ((s.detachFromLookupNode c block).claimBlock block (some priority) durationMs).record (.handOut block)

end WindowBlockManager

variable (c : WindowConfig)

def getFreeBlock (priority : RetentionPriority) (durationMs : Option ℕ) : Manage BlockId := fun s =>
  match s.firstFreeBlock c .primary with
  | none => .error "No free block found. This shouldn't happen!" s
  | some (block, canOffload) =>
    if (s.allBlocksById block).blockKey.uniqueTokens ≠ [] ∧ canOffload = true ∧
      0 < s.numFreeBlocksPerLevel .secondary then
      match s.firstFreeBlock c .secondary with
      | none => .error "No free block found. This shouldn't happen!" s
      | some (offloadBlock, _) =>
        .ok offloadBlock ((s.offloadInto block offloadBlock).takeBlock c offloadBlock priority durationMs)
    else .ok block (s.takeBlock c block priority durationMs)

def onboardBlock (offloadBlock : BlockId) : Manage PUnit := do
  let s ← get
  if s.getCacheLevel offloadBlock = .secondary then
    let block ← getFreeBlock c kDefaultRetentionPriority none
    modify fun s =>
      ((s.swapMemoryPoolBlockOffset offloadBlock block).record (.onboard offloadBlock block)).releaseBlock block false

def hasFreeBlocks (numRequired : ℕ) : Manage Bool := do
  let s ← get
  if (c.numPrimaryBlocks + c.numSecondaryBlocks : ℤ) < s.numFreeBlocksPerLevel .primary then
    throw "getNumFreeBlocks - primary free block count exceeds total block count"
  pure (decide ((numRequired : ℤ) ≤ s.numFreeBlocksPerLevel .primary))

/-! ### Sequences -/

def getSequence (requestId : ℕ) : Manage GenerationRequest := fun s =>
  match s.sequences.get? requestId with
  | some sequence => .ok sequence s
  | none => .error "unordered_map::at" s

def getAllocatedBlocks (requestId : ℕ) : Manage (List BlockPtr) := fun s =>
  match s.allocatedBlocksPerSeq.get? requestId with
  | some blocks => .ok blocks s
  | none => .error "unordered_map::at" s

variable {requestId : ℕ} {s t : WindowBlockManager} {sequence : GenerationRequest} {blocks : List BlockPtr}

theorem getSequence_of_get? (hget : s.sequences.get? requestId = some sequence) : getSequence requestId s = .ok sequence s := by
  rw [getSequence, hget]

theorem getAllocatedBlocks_of_get?
    (hget : s.allocatedBlocksPerSeq.get? requestId = some blocks) : getAllocatedBlocks requestId s = .ok blocks s := by
  rw [getAllocatedBlocks, hget]

theorem getSequence_eq_ok
    (h : getSequence requestId s = .ok sequence t) : t = s ∧ s.sequences.get? requestId = some sequence := by
  unfold getSequence at h
  split at h
  · rename_i hget
    cases h
    exact ⟨rfl, hget⟩
  · cases h

theorem getAllocatedBlocks_eq_ok (h : getAllocatedBlocks requestId s = .ok blocks t) :
    t = s ∧ s.allocatedBlocksPerSeq.get? requestId = some blocks := by
  unfold getAllocatedBlocks at h
  split at h
  · rename_i hget
    cases h
    exact ⟨rfl, hget⟩
  · cases h

def setSequence (requestId : ℕ) (sequence : GenerationRequest) : Manage PUnit :=
  modify fun s => { s with sequences := s.sequences.insert requestId sequence }

def setAllocatedBlocks (requestId : ℕ) (blocks : List BlockPtr) : Manage PUnit :=
  modify fun s => { s with allocatedBlocksPerSeq := s.allocatedBlocksPerSeq.insert requestId blocks }

def createPlaceholder : Manage BlockPtr := fun s =>
  .ok (.placeholder s.numPlaceholders) { s with
      numPlaceholders := s.numPlaceholders + 1
      placeholderRefCounts := update s.placeholderRefCounts s.numPlaceholders 0 }

variable (block : BlockPtr)

def decRefCount : Manage PUnit := fun s =>
  if s.refCount block = 0 then .error "Can't remove link from block that is not allocated" s
  else
    .ok ⟨⟩ (match block with
      | .block id => s.modifyBlock id fun b => { b with refCount := b.refCount - 1 }
      | .placeholder id =>
        { s with placeholderRefCounts := update s.placeholderRefCounts id (s.placeholderRefCounts id - 1) })

/-- `decRefCount`, and `releaseBlock` once no reference is left. -/
def dropReference (toFront : Bool) (block : BlockPtr) : Manage PUnit := do
  decRefCount block
  modify fun s => if s.hasRefs block then s else s.releasePtr toFront block

def addBlockToBeam (requestId beamIdx : ℕ) : Manage PUnit := do
  modify fun s => s.incRefCount block
  let sequence ← getSequence requestId
  setSequence requestId { sequence with
      cacheBlockIds := update sequence.cacheBlockIds beamIdx (sequence.cacheBlockIds beamIdx ++ [block]) }
  let blocks ← getAllocatedBlocks requestId
  setAllocatedBlocks requestId (blocks ++ [block])

def addBlockToAllBeams (requestId : ℕ) : Manage PUnit := do
  let sequence ← getSequence requestId
  (List.range sequence.beamWidth).forM fun beamIdx => addBlockToBeam block requestId beamIdx

/-! ### Admission, first phase -/

structure ClaimedBlock where
  block : Option BlockId
  numMatchedTokens : ℕ
  isPartialMatch : Bool
  needsCopy : Bool
  shouldReleaseCopySource : Bool
deriving DecidableEq

structure ClaimResult where
  claimedBlocks : List ClaimedBlock
  totalMatchedTokens : ℕ
  numSharedContextBlocks : ℕ
  numContextBlocks : ℕ
  blockKeys : List BlockKey
  perBlockRetentions : List Retention

structure TrackerEntry where
  requestIdx : ℕ
  claimedIdx : ℕ
  fullyMatched : Bool
deriving DecidableEq

/-- The state of the first phase while the blocks of one request are claimed. -/
structure Claims where
  manager : WindowBlockManager
  tracker : Dict BlockId TrackerEntry
  claimResults : List ClaimResult
  claimedBlocks : List ClaimedBlock

namespace Claims

variable (claims : Claims)

def amend (entry : TrackerEntry) (f : ClaimedBlock → ClaimedBlock) : Claims := { claims with
    claimResults := claims.claimResults.modify entry.requestIdx fun result =>
      { result with claimedBlocks := result.claimedBlocks.modify entry.claimedIdx f } }

def track (block : BlockId) (entry : TrackerEntry) : Claims := { claims with tracker := claims.tracker.insert block entry }

def push (claimed : ClaimedBlock) : Claims := { claims with claimedBlocks := claims.claimedBlocks ++ [claimed] }

def claim (block : BlockId) (retention : Retention) : Claims :=
  { claims with manager := claims.manager.claimBlock block retention.retentionPriority retention.durationMs }

variable (requestIdx : ℕ) (retention : Retention)

/-- An unreferenced block with children is claimed and copied; the last copier gives it back. -/
def claimCopySource (block : BlockId) (claimed : ClaimedBlock) : Claims :=
  let claims := claims.claim block retention
  let claimedIdx := claims.claimedBlocks.length
  match claims.tracker.get? block with
  | some entry =>
    if entry.fullyMatched then
      (claims.track block ⟨requestIdx, claimedIdx, true⟩).push
        { claimed with needsCopy := true, shouldReleaseCopySource := false }
    else
      ((claims.amend entry fun previous => { previous with shouldReleaseCopySource := false }).track block
        ⟨requestIdx, claimedIdx, false⟩).push { claimed with needsCopy := true, shouldReleaseCopySource := true }
  | none =>
    (claims.track block ⟨requestIdx, claimedIdx, false⟩).push { claimed with needsCopy := true, shouldReleaseCopySource := true }

/-- An unreferenced leaf is used in place by the last request that matches it in part, unless another request
matches it in full. -/
def claimLeaf (block : BlockId) (claimed : ClaimedBlock) : Claims :=
  let claims := claims.claim block retention
  let claimedIdx := claims.claimedBlocks.length
  match claims.tracker.get? block with
  | some entry =>
    if entry.fullyMatched then claims.push { claimed with needsCopy := true }
    else
      ((claims.amend entry fun previous => { previous with needsCopy := true }).track block
        ⟨requestIdx, claimedIdx, false⟩).push { claimed with needsCopy := false }
  | none => (claims.track block ⟨requestIdx, claimedIdx, false⟩).push { claimed with needsCopy := false }

/-- A full match takes the block from the request that wanted to use or release it. -/
def claimFullMatch (block : BlockId) (claimed : ClaimedBlock) : Claims :=
  let claims := claims.claim block retention
  match claims.tracker.get? block with
  | some entry =>
    if entry.fullyMatched then
      (claims.track block ⟨requestIdx, claims.claimedBlocks.length, true⟩).push claimed
    else
      ((claims.amend entry fun previous =>
          { previous with needsCopy := true, shouldReleaseCopySource := false }).track block
        { entry with fullyMatched := true }).push claimed
  | none => (claims.track block ⟨requestIdx, claims.claimedBlocks.length, true⟩).push claimed

/-- The body of the loop of `claimMatchingBlocks`. -/
def claimMatch (reuseMatch : ReuseMatch) (claims : Claims) : Claims :=
  let claimed : ClaimedBlock :=
    ⟨reuseMatch.block, reuseMatch.numMatchedTokens, reuseMatch.isPartialMatch, false, false⟩
  match reuseMatch.block with
  | none => claims.push claimed
  | some block =>
    if reuseMatch.isPartialMatch then
      if claims.manager.hasRefs (.block block) then claims.push { claimed with needsCopy := true }
      else if claims.manager.isLeaf block then claims.claimLeaf requestIdx retention block claimed
      else claims.claimCopySource requestIdx retention block claimed
    else claims.claimFullMatch requestIdx retention block claimed

end Claims

variable (llmRequest : LlmRequest)

def keyTokens : Option (List UniqueToken) :=
  if c.cacheType = .cross then llmRequest.encoderUniqueTokens else some llmRequest.uniqueTokens

def contextBlockKeys (inputLength : ℕ) : Option (List BlockKey) :=
  match keyTokens c llmRequest with
  | none => some []
  | some uniqueTokens =>
    (chopVectorIntoBlocks uniqueTokens (inputLength - 1) c.tokensPerBlock true).map fun blockedUniqueTokens =>
      buildBlockKeys llmRequest (blockedUniqueTokens ++ if inputLength % c.tokensPerBlock = 1 then [[]] else [])

def numSharedContextBlocks (beamWidth inputLength : ℕ) : ℕ :=
  let numContextBlocks := inputLength ⌈/⌉ c.tokensPerBlock
  let isShareLastContextBlock := c.cacheType = .cross ∨ inputLength % c.tokensPerBlock = 0
  if 1 < beamWidth ∧ ¬ isShareLastContextBlock then numContextBlocks - 1 else numContextBlocks

def buildClaimResultMetadata (inputLength : ℕ) : Manage ClaimResult := do
  let s ← get
  if (s.allocatedBlocksPerSeq.get? llmRequest.requestId).isSome then throw "emplaceDone"
  setAllocatedBlocks llmRequest.requestId []
  let sequence ← getSequence llmRequest.requestId
  let numContextBlocks := inputLength ⌈/⌉ c.tokensPerBlock
  let perBlockRetentions := llmRequest.getPerBlockRetentionPriorityDuration c.tokensPerBlock inputLength
  match contextBlockKeys c llmRequest inputLength with
  | none => throw "usableSize > vec.size()"
  | some blockKeys =>
    if perBlockRetentions.length ≠ numContextBlocks then throw "perBlockRetentions.size() == numContextBlocks"
    pure
      { claimedBlocks := []
        totalMatchedTokens := 0
        numSharedContextBlocks := numSharedContextBlocks c sequence.beamWidth inputLength
        numContextBlocks
        blockKeys
        perBlockRetentions }

variable (result : ClaimResult)

def retentionAt (blockIdx : ℕ) : Retention := result.perBlockRetentions.getD blockIdx ⟨none, none⟩

def claimMatchingBlocks (inputLength requestIdx : ℕ) (tracker : Dict BlockId TrackerEntry)
    (claimResults : List ClaimResult) : Manage (Dict BlockId TrackerEntry × List ClaimResult) := do
  let result ← buildClaimResultMetadata c llmRequest inputLength
  let sequence ← getSequence llmRequest.requestId
  let s ← get
  let reuse := s.findReusableBlockMatches c result.blockKeys sequence.currentPrepopulatedPromptLen
  let claims : Claims := (reuse.reuseMatches.take result.numSharedContextBlocks).zipIdx.foldl
    (fun claims indexed => Claims.claimMatch requestIdx (retentionAt result indexed.2) indexed.1 claims)
    ⟨s, tracker, claimResults, []⟩
  set claims.manager
  pure (claims.tracker, claims.claimResults ++
    [{ result with claimedBlocks := claims.claimedBlocks, totalMatchedTokens := reuse.totalMatchedTokens }])

structure BatchRequest where
  llmRequest : LlmRequest
  inputLength : ℕ

/-- Phase 1 of `addSequenceBatch` with reuse. -/
def claimAll (c : WindowConfig) : ℕ → List BatchRequest → Dict BlockId TrackerEntry → List ClaimResult →
    Manage (List ClaimResult)
  | _, [], _, claimResults => pure claimResults
  | requestIdx, request :: requests, tracker, claimResults => do
      let next ← claimMatchingBlocks c request.llmRequest request.inputLength requestIdx tracker claimResults
      claimAll c (requestIdx + 1) requests next.1 next.2

variable (requests : List BatchRequest)

/-- Phase 1 of `addSequenceBatch` without reuse. -/
def prepareAll : Manage (List ClaimResult) :=
  requests.mapM fun request => buildClaimResultMetadata c request.llmRequest request.inputLength

/-! ### Admission, second phase -/

def setOptionalBlockKey (block : BlockId) (blockKey : Option BlockKey) : Manage PUnit :=
  match blockKey with
  | none => pure ⟨⟩
  | some key => modify fun s => s.setBlockKey block key (decide (key.uniqueTokens.length = c.tokensPerBlock))

def copyPartialMatch (copySource : BlockId) (shouldReleaseCopySource : Bool) (blockKey : Option BlockKey) : Manage BlockId := do
  let s ← get
  let newBlock ← getFreeBlock c (s.allBlocksById copySource).priority (s.allBlocksById copySource).durationMs
  modify fun s => s.record (.copy copySource newBlock)
  modify fun s =>
    if shouldReleaseCopySource && !s.hasRefs (.block copySource) then s.releaseBlock copySource false else s
  setOptionalBlockKey c newBlock blockKey
  pure newBlock

def freeLeafBlock (block : BlockId) : Manage PUnit := fun s =>
  if s.isLeaf block then .ok ⟨⟩ (s.detachFromLookupNode c block) else .error "isLeaf()" s

/-- The body of the loop over the claimed blocks. -/
def onboardClaimed (requestId : ℕ) (claimed : ClaimedBlock) (blockKey : Option BlockKey) : Manage PUnit := do
  match claimed.block with
  | none =>
    let placeholder ← createPlaceholder
    addBlockToAllBeams placeholder requestId
  | some matching =>
    let block ←
      if claimed.isPartialMatch && claimed.needsCopy then
        copyPartialMatch c matching claimed.shouldReleaseCopySource blockKey
      else if claimed.isPartialMatch then do
        freeLeafBlock c matching
        pure matching
      else pure matching
    onboardBlock c block
    addBlockToAllBeams (.block block) requestId

def allocateShared (requestId : ℕ) (result : ClaimResult) (blockIdx : ℕ) : Manage PUnit := do
  let retention := retentionAt result blockIdx
  let block ← getFreeBlock c (retention.retentionPriority.getD kDefaultRetentionPriority) retention.durationMs
  addBlockToAllBeams (.block block) requestId
  setOptionalBlockKey c block (result.blockKeys[blockIdx]?)

/-- The last context block of one beam. The key iterator moves on with every beam. -/
def allocateForBeam (requestId : ℕ) (result : ClaimResult) (blockIdx beamIdx : ℕ) : Manage PUnit := do
  let retention := retentionAt result blockIdx
  let block ← getFreeBlock c (retention.retentionPriority.getD kDefaultRetentionPriority) retention.durationMs
  addBlockToBeam (.block block) requestId beamIdx
  setOptionalBlockKey c block (result.blockKeys[blockIdx + beamIdx]?)

/-- The matched tokens that count: those of a block that is not shared by the beams are computed again. -/
def finalMatchedTokens : ℕ := min result.totalMatchedTokens (result.numSharedContextBlocks * c.tokensPerBlock)

def setCurrentPrepopulatedPromptLen (requestId numMatchedTokens : ℕ) : Manage PUnit := do
  let sequence ← getSequence requestId
  if sequence.currentPrepopulatedPromptLen < numMatchedTokens then
    throw "currentPrepopulatedPromptLen must be updated non-increasingly"
  setSequence requestId { sequence with currentPrepopulatedPromptLen := numMatchedTokens }

def numConnectorMatchedTokens (numMatchedTokens : ℕ) : ℕ :=
  if llmRequest.isDummyRequest then 0
  else c.kvCacheConnector.elim 0 fun getNumNewMatchedTokens => getNumNewMatchedTokens llmRequest numMatchedTokens

def onboardAndAllocateBlocks : Manage ℕ := do
  let requestId := llmRequest.requestId
  result.claimedBlocks.zipIdx.forM fun indexed =>
    onboardClaimed c requestId indexed.1 (result.blockKeys[indexed.2]?)
  ((List.range result.numSharedContextBlocks).drop result.claimedBlocks.length).forM fun blockIdx =>
    allocateShared c requestId result blockIdx
  let sequence ← getSequence requestId
  ((List.range result.numContextBlocks).drop result.numSharedContextBlocks).forM fun blockIdx =>
    (List.range sequence.beamWidth).forM fun beamIdx => allocateForBeam c requestId result blockIdx beamIdx
  setCurrentPrepopulatedPromptLen requestId (finalMatchedTokens c result)
  pure (finalMatchedTokens c result + numConnectorMatchedTokens c llmRequest (finalMatchedTokens c result))

/-- Phase 2 of `addSequenceBatch`. -/
def onboardAll (claimResults : List ClaimResult) : Manage (List ℕ) :=
  (requests.zip claimResults).mapM fun pair => onboardAndAllocateBlocks c pair.1.llmRequest pair.2

def addSequenceBatch : Manage (List ℕ) := do
  let claimResults ← if c.enableBlockReuse then claimAll c 0 requests ∅ [] else prepareAll c requests
  onboardAll c requests claimResults

def maxSizeType32 : ℕ := 2 ^ 31 - 1

structure RequestInfo where
  llmRequest : LlmRequest
  inputLength : ℕ
  beamWidth : ℕ
  beamWidth_pos : 0 < beamWidth

def createSequence (info : RequestInfo) : Manage PUnit := do
  let s ← get
  if (s.sequences.get? info.llmRequest.requestId).isSome then throw "emplaceDone"
  setSequence info.llmRequest.requestId
    { numTokens := info.inputLength
      beamWidth := info.beamWidth
      beamWidth_pos := info.beamWidth_pos
      cacheBlockIds := fun _ => []
      numFrontBlocksRemoved := 0
      currentPrepopulatedPromptLen := maxSizeType32
      decodeRetentionPriority := info.llmRequest.decodeRetentionPriority
      decodeDurationMs := info.llmRequest.decodeDurationMs }

/-- The request as a window sees it: longer inputs are cut to what a sequence may hold. -/
def RequestInfo.inWindow (info : RequestInfo) : BatchRequest := ⟨info.llmRequest, min info.inputLength c.maxTokenNum⟩

/-- `KVCacheManager::addSequenceBatch` with a single window. -/
def admitBatch (infos : List RequestInfo) : Manage (List ℕ) := do
  infos.forM createSequence
  addSequenceBatch c (infos.map (RequestInfo.inWindow c))

/-! ### Growth -/

variable (requestId)

def detachFrontBlock : Manage PUnit := do
  let sequence ← getSequence requestId
  if sequence.beamWidth ≠ 1 then throw "[kv cache manager] detachBlock does not support beamWidth > 1 now."
  let blocks ← getAllocatedBlocks requestId
  match blocks[sequence.numFrontBlocksRemoved]? with
  | none => throw "vector::at"
  | some outOfWindowBlock =>
    let placeholder ← createPlaceholder
    setAllocatedBlocks requestId (blocks.set sequence.numFrontBlocksRemoved placeholder)
    modify fun s =>
      match outOfWindowBlock with
      | .block block => s.modifyBlock block fun b => { b with durationMs := none, expirationTime := none }
      | .placeholder _ => s
    dropReference false outOfWindowBlock
    setSequence requestId { sequence with numFrontBlocksRemoved := sequence.numFrontBlocksRemoved + 1 }

/-- The loop that detaches the blocks in front of the window, for at most the given number of rounds. -/
def detachFrontBlocks (c : WindowConfig) (requestId : ℕ) : ℕ → Manage PUnit
  | 0 => pure ⟨⟩
  | rounds + 1 => do
      let sequence ← getSequence requestId
      if c.isSWA ∧ sequence.numFrontBlocksRemoved * c.tokensPerBlock + (c.windowSize + c.tokensPerBlock)
          ≤ sequence.numTokens then
        detachFrontBlock requestId
        detachFrontBlocks c requestId rounds

def allocateBlock (shareAmongBeams : Bool) : Manage PUnit := do
  let sequence ← getSequence requestId
  let enough ← hasFreeBlocks c (if shareAmongBeams then 1 else sequence.beamWidth)
  if !enough then throw "Can't allocate new blocks. No free blocks left."
  if shareAmongBeams then
    let block ← getFreeBlock c sequence.decodeRetentionPriority sequence.decodeDurationMs
    (List.range sequence.beamWidth).forM fun beamIdx => addBlockToBeam (.block block) requestId beamIdx
  else
    (List.range sequence.beamWidth).forM fun beamIdx => do
      let block ← getFreeBlock c sequence.decodeRetentionPriority sequence.decodeDurationMs
      addBlockToBeam (.block block) requestId beamIdx

/-- `adjustBlocksIfNeeded`. Every round of the loop moves the window by a block, so `numTokens` rounds are enough. -/
def adjustBlocksIfNeeded : Manage PUnit := do
  let sequence ← getSequence requestId
  detachFrontBlocks c requestId sequence.numTokens
  if (sequence.numTokens - 1) % c.tokensPerBlock = 0 then
    allocateBlock c requestId (decide (sequence.beamWidth = 1))

def addToken : Manage PUnit := do
  let sequence ← getSequence requestId
  setSequence requestId { sequence with numTokens := sequence.numTokens + 1 }
  adjustBlocksIfNeeded c requestId

/-! ### Storing blocks for reuse -/

def getMaterializedUniqueTokenCountForReuse : ℕ :=
  if llmRequest.contextCurrentPosition < llmRequest.promptLen then
    min llmRequest.uniqueTokens.length llmRequest.contextCurrentPosition
  else llmRequest.uniqueTokens.length

def getUsableUniqueTokenCountForReuse : ℕ := getMaterializedUniqueTokenCountForReuse llmRequest - 1

/-- The count with the fallback for a context position of zero. -/
def usableUniqueTokenCount : ℕ :=
  if getUsableUniqueTokenCountForReuse llmRequest = 0 ∧ llmRequest.contextCurrentPosition = 0 then
    llmRequest.uniqueTokens.length - 1
  else getUsableUniqueTokenCountForReuse llmRequest

namespace WindowBlockManager

def pinBlock (s : WindowBlockManager) (block : BlockId) : WindowBlockManager :=
  (if s.hasRefs (.block block) then s
    else s.claimBlock block (some (s.allBlocksById block).priority) (s.allBlocksById block).durationMs).incRefCount
    (.block block)

/-- What `storeBlocks` does at one node, and the block that is found there afterwards. Placeholders of sliding
windows are passed over. -/
def storeBlock (s : WindowBlockManager) (c : WindowConfig) (node : List BlockKey) (blockKey : BlockKey) :
    BlockPtr → WindowBlockManager × Option BlockId
  | .placeholder _ => (s, none)
  | .block block =>
    match s.lookupTree.getValue node c.windowSize with
    | some existing => (s, if (s.allBlocksById block).isPlaceholder then none else some existing)
    | none =>
      (((s.detachFromLookupNode c block).setBlockKey block blockKey
          (decide (blockKey.uniqueTokens.length = c.tokensPerBlock))).attachToLookupNode c block node,
        if (s.allBlocksById block).isPlaceholder then none else some block)

def storeBlocksAt (c : WindowConfig) (pinBlocks : Bool) :
    WindowBlockManager → List (List BlockKey × BlockKey × BlockPtr) → WindowBlockManager × List BlockId
  | s, [] => (s, [])
  | s, (node, blockKey, block) :: rest =>
    match s.storeBlock c node blockKey block with
    | (stored, some prevBlock) =>
      if pinBlocks then
        let next := storeBlocksAt c pinBlocks (stored.pinBlock prevBlock) rest
        (next.1, prevBlock :: next.2)
      else storeBlocksAt c pinBlocks stored rest
    | (stored, none) => storeBlocksAt c pinBlocks stored rest

def storeBlocks (s : WindowBlockManager) (c : WindowConfig) (blockKeys : List BlockKey) (blocks : List BlockPtr)
    (pinBlocks : Bool) : WindowBlockManager × List BlockId :=
  let blockKeys := blockKeys.take blocks.length
  if blockKeys = [] then (s, [])
  else
    let inserted := s.lookupTree.insertNodes blockKeys
    storeBlocksAt c pinBlocks { s with lookupTree := inserted.1 } (inserted.2.zip (blockKeys.zip blocks))

end WindowBlockManager

def reuseKeys (usableSize : ℕ) (allowPartial : Bool) : Option (List BlockKey) :=
  (chopVectorIntoBlocks llmRequest.uniqueTokens usableSize c.tokensPerBlock allowPartial).map
    fun blockedUniqueTokens => buildBlockKeys llmRequest blockedUniqueTokens

def beam0Blocks (beamWidth : ℕ) (blocks : List BlockPtr) : List BlockPtr :=
  (List.range (blocks.length ⌈/⌉ beamWidth)).filterMap fun i => blocks[i * beamWidth]?

def BlockPtr.isPoolBlock : BlockPtr → Bool
  | .block _ => true
  | .placeholder _ => false

def storeContextBlocks : Manage PUnit := do
  let sequence ← getSequence requestId
  match reuseKeys c llmRequest (usableUniqueTokenCount llmRequest) false with
  | none => throw "usableSize > vec.size()"
  | some blockKeys =>
    -- The block ids end at the first placeholder: `getBlockById` does not know it.
    let blocks := ((sequence.cacheBlockIds 0).take blockKeys.length).takeWhile BlockPtr.isPoolBlock
    modify fun s => (s.storeBlocks c blockKeys blocks false).1

def storeBlocksForReuse (pinBlocks : Bool) : Manage (List BlockId) := do
  let usableSize :=
    if c.isRecurrentState then min (llmRequest.promptLen - 1) (usableUniqueTokenCount llmRequest)
    else usableUniqueTokenCount llmRequest
  match reuseKeys c llmRequest usableSize true with
  | none => throw "usableSize > vec.size()"
  | some blockKeys =>
    let seqBlocks ← getAllocatedBlocks requestId
    let sequence ← getSequence requestId
    let s ← get
    let stored := s.storeBlocks c blockKeys (beam0Blocks sequence.beamWidth seqBlocks) pinBlocks
    set stored.1
    pure stored.2

/-! ### Release -/

namespace WindowBlockManager

/-- The body of the loop of `releaseBlocks`: a block that lost its last reference goes to the front of its queue
if it cannot be reused. -/
def releaseReference (s : WindowBlockManager) (block : BlockPtr) : WindowBlockManager :=
  let s :=
    match block with
    | .block id => s.modifyBlock id fun b => { b with refCount := b.refCount - 1 }
    | .placeholder id =>
      { s with placeholderRefCounts := update s.placeholderRefCounts id (s.placeholderRefCounts id - 1) }
  if s.hasRefs block then s
  else
    match block with
    | .block id => s.releaseBlock id (s.isDetached id)
    | .placeholder _ => s

end WindowBlockManager

def releaseBlocks (requestId beamWidth : ℕ) (llmRequest : Option LlmRequest) : Manage PUnit := do
  let allocatedBlocks ← getAllocatedBlocks requestId
  modify fun s => { s with allocatedBlocksPerSeq := s.allocatedBlocksPerSeq.erase requestId }
  match llmRequest with
  | none => pure ⟨⟩
  | some llmRequest =>
    if !c.isRecurrentState then
      match reuseKeys c llmRequest (usableUniqueTokenCount llmRequest) true with
      | none => throw "usableSize > vec.size()"
      | some blockKeys => modify fun s => (s.storeBlocks c blockKeys (beam0Blocks beamWidth allocatedBlocks) false).1
  modify fun s => allocatedBlocks.reverse.foldl WindowBlockManager.releaseReference s

/-- The conditions under which the block manager passes a removed request on. -/
def storedOnRemoval (beamWidth : ℕ) (llmRequest : LlmRequest) : Bool :=
  c.enableBlockReuse && !llmRequest.isDummyRequest && decide (beamWidth ≤ 1) && !c.hasLinearAttentionMetadata

def removeSequence (llmRequest : Option LlmRequest) : Manage PUnit := do
  let s ← get
  match s.sequences.get? requestId with
  | none => pure ⟨⟩
  | some sequence =>
    modify fun s => { s with sequences := s.sequences.erase requestId }
    releaseBlocks c requestId sequence.beamWidth (llmRequest.filter (storedOnRemoval c sequence.beamWidth))

/-! ### Pins, replacement -/

/-- `pinBlock` of what a sequence holds: a placeholder without references is not known to the free queues. -/
def pinPtr : Manage PUnit := fun s =>
  match block with
  | .block id => .ok ⟨⟩ (s.pinBlock id)
  | .placeholder id =>
    if s.placeholderRefCounts id = 0 then
      .error "SWA sentinel placeholders are not part of the indexed free queues" s
    else .ok ⟨⟩ (s.incRefCount (.placeholder id))

def pinBlocks : Manage PUnit := do
  let blocks ← getAllocatedBlocks requestId
  blocks.forM pinPtr

def unpinBlocksById (blockIds : List BlockId) : Manage PUnit := blockIds.forM fun block => do
    if c.numPrimaryBlocks + c.numSecondaryBlocks ≤ block then throw "Block id is out of range"
    dropReference false (.block block)

def replaceForBeam (requestId blockIdx beamWidth : ℕ) (blockKey : BlockKey) (isFull : Bool) (beamIdx : ℕ) : Manage PUnit := do
  let block ← getFreeBlock c kDefaultRetentionPriority none
  modify fun s => s.incRefCount (.block block)
  modify fun s => s.setBlockKey block blockKey isFull
  let sequence ← getSequence requestId
  setSequence requestId { sequence with
      cacheBlockIds := update sequence.cacheBlockIds beamIdx ((sequence.cacheBlockIds beamIdx).set blockIdx (.block block)) }
  let blocks ← getAllocatedBlocks requestId
  setAllocatedBlocks requestId (blocks.set (blockIdx * beamWidth + beamIdx) (.block block))

def replaceSharedBlock (requestId blockIdx : ℕ) : Manage PUnit := do
  let sequence ← getSequence requestId
  let blocks ← getAllocatedBlocks requestId
  match blocks[(blockIdx + 1) * sequence.beamWidth - 1]?, blocks[blockIdx * sequence.beamWidth]? with
  | some last, some first =>
    let s ← get
    if s.isShared last then
      let (blockKey, isFull) :=
        match first with
        | .block id => ((s.allBlocksById id).blockKey, (s.allBlocksById id).isFull)
        | .placeholder _ => (⟨false, none, [], [], none⟩, false)
      ((blocks.drop (blockIdx * sequence.beamWidth)).take sequence.beamWidth).forM fun block =>
        dropReference false block
      let enough ← hasFreeBlocks c sequence.beamWidth
      if !enough then throw "Can't allocate new blocks. No free blocks left."
      (List.range sequence.beamWidth).forM fun beamIdx =>
        replaceForBeam c requestId blockIdx sequence.beamWidth blockKey isFull beamIdx
  | _, _ => throw "vector::at"

def refreshBlocks : Manage PUnit := modify fun s => s.refresh

/-! ### Truncation -/

namespace WindowBlockManager

/-- The depth-first walk of `releaseSubtree`, for at most the given number of rounds. -/
def collectSubtree (s : WindowBlockManager) (c : WindowConfig) : ℕ → List BlockId → List BlockId → List BlockId
  | 0, _, subtree => subtree
  | _, [], subtree => subtree
  | rounds + 1, current :: stack, subtree =>
    collectSubtree s c rounds ((s.getNextBlocks c current).reverse ++ stack) (subtree ++ [current])

end WindowBlockManager

def releaseLeaf (block : BlockId) : Manage PUnit := do
  freeLeafBlock c block
  modify fun s =>
    if s.hasRefs (.block block) then s
    else (s.modifyBlock block fun b => { b with priority := kMinRetentionPriority }).releaseBlock block true

/-- `releaseSubtree`. The walk visits every node at most once. -/
def releaseSubtree (block : BlockId) : Manage PUnit := do
  let s ← get
  (s.collectSubtree c (s.lookupTree.nodes.keys.length + 1) [block] []).reverse.forM (releaseLeaf c)

/-- The walk of `truncateBlocks`: the block at which it starts to release, if it gets there. -/
def WindowBlockManager.truncationPoint (s : WindowBlockManager) (c : WindowConfig) (numTokensToKeep : ℕ) :
    List BlockKey → List BlockKey → ℕ → Option BlockId
  | [], _, _ => none
  | key :: keys, node, numMatchedTokens =>
    match s.findMatchingBlock c node key with
    | none => none
    | some (numMatched, block) =>
      if numTokensToKeep < numMatchedTokens then some block
      else
        match (s.allBlocksById block).lookupNode with
        | none => none
        | some next =>
          s.truncationPoint c numTokensToKeep keys next
            (numMatchedTokens + if 0 < numMatched then numMatched else key.uniqueTokens.length)

def truncateBlocks (targetTokens : List ℕ) (numTokensToKeep : ℕ) : Manage PUnit := do
  match chopVectorIntoBlocks targetTokens targetTokens.length c.tokensPerBlock true with
  | none => throw "usableSize > vec.size()"
  | some blockedTokens =>
    let s ← get
    match s.truncationPoint c numTokensToKeep (blockedTokens.map fun tokens => BlockKey.ofTokens tokens none) [] 0 with
    | none => pure ⟨⟩
    | some block =>
      modify fun s => s.modifyBlock block fun b => { b with priority := kMinRetentionPriority }
      releaseSubtree c block

end TrtLlm.BatchManager
