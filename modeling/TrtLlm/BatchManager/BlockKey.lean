import Mathlib

/-!
# Block keys of the C++ block manager

A block of the lookup tree is named by the tokens it covers, together with the data that must agree before the
tokens are compared at all. `chopVectorIntoBlocks` cuts a token list into blocks and `buildBlockKeys` turns the
blocks of a request into keys.
-/

namespace TrtLlm.BatchManager

structure UniqueToken where
  tokenId : ℕ
  tokenExtraId : ℕ
deriving DecidableEq

structure MmKey where
  hash : List ℕ
  startOffset : ℕ
  uuid : Option String
deriving DecidableEq

structure BlockKey where
  usesExtraIds : Bool
  loraTaskId : Option ℕ
  uniqueTokens : List UniqueToken
  extraKeys : List MmKey
  cacheSalt : Option String
deriving DecidableEq

/-- `executor::RetentionPriority`: `kMinRetentionPriority` is 0 and `kMaxRetentionPriority` is 100. -/
abbrev RetentionPriority := Fin 101

def kMinRetentionPriority : RetentionPriority := 0

def kDefaultRetentionPriority : RetentionPriority := 35

def kDefaultSecondaryOffloadMinPriority : RetentionPriority := 30

structure Retention where
  retentionPriority : Option RetentionPriority
  durationMs : Option ℕ

/-- What the block manager reads of a request; the retention table and the multimodal keys are the answers of
`getPerBlockRetentionPriorityDuration` and `generateBlockHashExtraKeys`. -/
structure LlmRequest where
  requestId : ℕ
  promptLen : ℕ
  uniqueTokens : List UniqueToken
  encoderUniqueTokens : Option (List UniqueToken)
  contextCurrentPosition : ℕ
  isDummyRequest : Bool
  hasInputTokensExtraIds : Bool
  loraTaskId : Option ℕ
  cacheSalt : Option String
  generateBlockHashExtraKeys : ℕ → ℕ → List MmKey
  getPerBlockRetentionPriorityDuration : ℕ → ℕ → List Retention
  decodeRetentionPriority : RetentionPriority
  decodeDurationMs : Option ℕ

/-- A text request without adapters, salt, multimodal data or retention settings. -/
def LlmRequest.plain (requestId : ℕ) (tokens : List ℕ) (contextCurrentPosition : ℕ) : LlmRequest where
  requestId := requestId
  promptLen := tokens.length
  uniqueTokens := tokens.map fun token => ⟨token, 0⟩
  encoderUniqueTokens := none
  contextCurrentPosition := contextCurrentPosition
  isDummyRequest := false
  hasInputTokensExtraIds := false
  loraTaskId := none
  cacheSalt := none
  generateBlockHashExtraKeys := fun _ _ => []
  getPerBlockRetentionPriorityDuration := fun blockSize seqLen => List.replicate (seqLen ⌈/⌉ blockSize) ⟨none, none⟩
  decodeRetentionPriority := kDefaultRetentionPriority
  decodeDurationMs := none

namespace BlockKey

def ofTokens (tokens : List ℕ) (loraTaskId : Option ℕ) : BlockKey where
  usesExtraIds := false
  loraTaskId := loraTaskId
  uniqueTokens := tokens.map fun token => ⟨token, 0⟩
  extraKeys := []
  cacheSalt := none

def supportsPartialMatching (key : BlockKey) : Bool := key.extraKeys.isEmpty

/-- The number of leading elements on which two lists agree: where `std::mismatch` stops. -/
def mismatch {α : Type*} [DecidableEq α] : List α → List α → ℕ
  | x :: xs, y :: ys => if x = y then mismatch xs ys + 1 else 0
  | _, _ => 0

def numMatchingTokens (key other : BlockKey) : ℕ :=
  if key.usesExtraIds = other.usesExtraIds ∧ key.loraTaskId = other.loraTaskId ∧ key.extraKeys = other.extraKeys
      ∧ key.cacheSalt = other.cacheSalt then
    mismatch key.uniqueTokens other.uniqueTokens
  else 0

def getNumTokens (key : BlockKey) : ℕ := key.uniqueTokens.length

def shorten (key : BlockKey) (newNumTokens : ℕ) : BlockKey := { key with uniqueTokens := key.uniqueTokens.take newNumTokens }

end BlockKey

/-- The first `usableSize` elements cut into blocks; the last may be short when `allowPartial`. `none` is the failed
check `usableSize <= vec.size()`. -/
def chopVectorIntoBlocks {α : Type*} (vec : List α) (usableSize elementsPerBlock : ℕ) (allowPartial : Bool) :
    Option (List (List α)) :=
  if usableSize ≤ vec.length then
    let numBlocks := if allowPartial then usableSize ⌈/⌉ elementsPerBlock else usableSize / elementsPerBlock
    some ((List.range numBlocks).map fun i =>
      ((vec.take usableSize).drop (i * elementsPerBlock)).take elementsPerBlock)
  else none

variable (llmRequest : LlmRequest)

/-- `buildBlockKeys`, from the token index at which the first of the blocks starts. -/
def buildBlockKeysFrom (llmRequest : LlmRequest) : ℕ → List (List UniqueToken) → List BlockKey
  | _, [] => []
  | currentTokenIdx, uniqueTokens :: rest =>
    { usesExtraIds := llmRequest.hasInputTokensExtraIds
      loraTaskId := llmRequest.loraTaskId
      uniqueTokens := uniqueTokens
      extraKeys := llmRequest.generateBlockHashExtraKeys currentTokenIdx (currentTokenIdx + uniqueTokens.length)
      cacheSalt := llmRequest.cacheSalt } ::
      buildBlockKeysFrom llmRequest (currentTokenIdx + uniqueTokens.length) rest

def buildBlockKeys (blockedUniqueTokens : List (List UniqueToken)) : List BlockKey :=
  buildBlockKeysFrom llmRequest 0 blockedUniqueTokens

theorem buildBlockKeysFrom_tokens (currentTokenIdx : ℕ) (blocks : List (List UniqueToken)) :
    (buildBlockKeysFrom llmRequest currentTokenIdx blocks).map BlockKey.uniqueTokens = blocks := by
  induction blocks generalizing currentTokenIdx with
  | nil => rfl
  | cons uniqueTokens rest ih => rw [buildBlockKeysFrom, List.map_cons, ih]

@[simp] theorem buildBlockKeys_tokens (blocks : List (List UniqueToken)) :
    (buildBlockKeys llmRequest blocks).map BlockKey.uniqueTokens = blocks :=
  buildBlockKeysFrom_tokens llmRequest 0 blocks

end TrtLlm.BatchManager
