import TrtLlm.BatchManager.Rewind

/-!
# What is published for reuse

`storeContextBlocks`, `storeBlocksForReuse` and `removeSequence` attach blocks of a request to the lookup tree. During
the prefill only the tokens below the context position are computed. What is stored stays below it, except at position
zero, where the whole prompt is stored.

`storeBlocksForReuse` may also pin the blocks: it does so in every window and returns the ids of the last one alone.
`unpinBlocksById` takes them back in the only window there is: with two windows it raises, and the pins stay.
-/

namespace TrtLlm.BatchManager

open List WindowBlockManager LlmRequest

def coveredTokens (c : WindowConfig) : List BlockKey → List ℕ
  | [] => []
  | key :: above => List.range' (above.length * c.tokensPerBlock) key.uniqueTokens.length

def newEvents (s t : WindowBlockManager) : List PoolEvent := t.events.drop s.events.length

def OnlyComputedAttached (c : WindowConfig) (llmRequest : LlmRequest) (s t : WindowBlockManager) : Prop :=
  ∀ block node, .attach block node ∈ newEvents s t →
    ∀ position ∈ coveredTokens c node, position < llmRequest.contextCurrentPosition

variable {i usableSize : ℕ} {req : LlmRequest} {allowPartial : Bool} {keys : List BlockKey}

theorem length_of_mem_chopVectorIntoBlocks {α : Type*} {vec : List α} {perBlock : ℕ}
    {blocks : List (List α)} (hpos : 0 < perBlock)
    (h : chopVectorIntoBlocks vec usableSize perBlock allowPartial = some blocks) {block : List α}
    (hblock : blocks[i]? = some block) : 0 < block.length ∧ i * perBlock + block.length ≤ usableSize := by
  unfold chopVectorIntoBlocks at h
  split at h
  · rename_i hfits
    cases h
    rw [getElem?_map, Option.map_eq_some_iff] at hblock
    obtain ⟨j, hj, rfl⟩ := hblock
    obtain ⟨hlt, rfl⟩ := List.getElem?_eq_some_iff.1 hj
    rw [length_range] at hlt
    rw [getElem_range]
    -- A block starts before the last usable element, also when the last block is cut short.
    have hstart : i * perBlock < usableSize := by
      cases allowPartial with
      | true =>
        rw [if_pos rfl, ← not_le, ceilDiv_le_iff_le_mul hpos, not_le] at hlt
        rwa [mul_comm]
      | false =>
        rw [if_neg (by decide), Nat.lt_div_iff_mul_lt hpos] at hlt
        omega
    rw [length_take, length_drop, length_take, min_eq_left hfits]
    omega
  · cases h

variable {c : WindowConfig} {s t : WindowBlockManager} {rid : ℕ}

/-- A place at which nothing would be attached: there is no block to attach, or the slot is taken. -/
def SlotTaken (c : WindowConfig) (s : WindowBlockManager) (place : List BlockKey × BlockKey × BlockPtr) : Prop :=
  place.2.2.isPoolBlock = false ∨ s.lookupTree.getValue place.1 c.windowSize ≠ none

/-- From `s` to `t` blocks are attached at the given places only, and none exactly when every slot is taken. -/
def AttachesAt (c : WindowConfig) (s t : WindowBlockManager) (places : List (List BlockKey × BlockKey × BlockPtr)) :
    Prop :=
  ∃ added, t.events = s.events ++ added ∧
    (∀ event ∈ added, ∃ place ∈ places, ∃ block, event = .attach block place.1) ∧
    (added = [] ↔ ∀ place ∈ places, SlotTaken c s place)

namespace WindowBlockManager

variable {c : WindowConfig} {s : WindowBlockManager}

@[simp] theorem lookupTree_pinBlock (s : WindowBlockManager) (block : BlockId) :
    (s.pinBlock block).lookupTree = s.lookupTree := by
  unfold pinBlock
  split <;> simp

@[simp] theorem events_pinBlock (s : WindowBlockManager) (block : BlockId) : (s.pinBlock block).events = s.events := by
  unfold pinBlock
  split <;> simp

theorem storeBlock_events (c : WindowConfig) (s : WindowBlockManager) (place : List BlockKey × BlockKey × BlockPtr) :
    ∃ own, (s.storeBlock c place.1 place.2.1 place.2.2).1.events = s.events ++ own ∧
      (∀ event ∈ own, ∃ block, event = .attach block place.1) ∧ (own = [] ↔ SlotTaken c s place) ∧
      (SlotTaken c s place → (s.storeBlock c place.1 place.2.1 place.2.2).1 = s) := by
  obtain ⟨node, blockKey, ptr⟩ := place
  unfold SlotTaken
  cases ptr with
  | placeholder id => exact ⟨[], (append_nil _).symm, nofun, by simp [BlockPtr.isPoolBlock], fun _ => rfl⟩
  | block block =>
    unfold storeBlock
    cases hvalue : s.lookupTree.getValue node c.windowSize with
    | some existing => exact ⟨[], (append_nil _).symm, nofun, by simp, fun _ => rfl⟩
    | none =>
      refine ⟨[.attach block node], by simp [attachToLookupNode, record], fun event hevent => ?_, ?_⟩
      · exact ⟨block, mem_singleton.1 hevent⟩
      · simp [BlockPtr.isPoolBlock]

theorem storeBlocksAt_events (pin : Bool) (places : List (List BlockKey × BlockKey × BlockPtr)) :
    AttachesAt c s (storeBlocksAt c pin s places).1 places := by
  induction places generalizing s with
  | nil => exact ⟨[], by simp [storeBlocksAt]⟩
  | cons place places ih =>
    -- What follows only depends on the tree and the events, and pinning changes neither.
    have hnext : ∃ next, (storeBlocksAt c pin s (place :: places)).1 = (storeBlocksAt c pin next places).1
        ∧ next.lookupTree = (s.storeBlock c place.1 place.2.1 place.2.2).1.lookupTree
        ∧ next.events = (s.storeBlock c place.1 place.2.1 place.2.2).1.events := by
      obtain ⟨node, blockKey, ptr⟩ := place
      rw [storeBlocksAt]
      cases hstore : s.storeBlock c node blockKey ptr with
      | mk stored prev =>
        cases prev with
        | none => exact ⟨stored, rfl, rfl, rfl⟩
        | some prevBlock =>
          dsimp only
          split
          · exact ⟨stored.pinBlock prevBlock, rfl, by simp, by simp⟩
          · exact ⟨stored, rfl, rfl, rfl⟩
    obtain ⟨next, hrun, htree, hevents⟩ := hnext
    obtain ⟨added, hadded, hplaces, hnone⟩ := ih
    obtain ⟨own, hown, hattach, hnil, hsame⟩ := storeBlock_events c s place
    rw [hrun, AttachesAt, hadded, hevents, hown, append_assoc]
    refine ⟨_, rfl, fun event hevent => ?_, ?_⟩
    · rcases mem_append.1 hevent with hfirst | hlater
      · exact ⟨place, .head _, hattach event hfirst⟩
      · obtain ⟨place', hmem, h⟩ := hplaces event hlater
        exact ⟨place', .tail _ hmem, h⟩
    · rw [append_eq_nil_iff, forall_mem_cons, hnil, hnone]
      refine and_congr_right fun htaken => ?_
      rw [hsame htaken] at htree
      simp only [SlotTaken, htree]

end WindowBlockManager

def storePlaces (blockKeys : List BlockKey) (blocks : List BlockPtr) : List (List BlockKey × BlockKey × BlockPtr) :=
  (Trie.nodesBelow [] (blockKeys.take blocks.length)).zip ((blockKeys.take blocks.length).zip blocks)

theorem storeBlocks_events (c : WindowConfig) (s : WindowBlockManager) (keys : List BlockKey)
    (blocks : List BlockPtr) (pin : Bool) :
    AttachesAt c s (s.storeBlocks c keys blocks pin).1 (storePlaces keys blocks) := by
  unfold storeBlocks storePlaces
  dsimp only
  split
  · rename_i hnil
    exact ⟨[], by simp [hnil]⟩
  obtain ⟨added, hadded, hplaces, hnone⟩ :=
    storeBlocksAt_events
      pin
      ((s.lookupTree.insertNodes (keys.take blocks.length)).2.zip ((keys.take blocks.length).zip blocks))
  rw [Trie.insertNodes_nodes] at hadded hplaces hnone
  refine ⟨added, ?_, hplaces, ?_⟩
  · rw [Trie.insertNodes_nodes]
    exact hadded
  · rw [hnone]
    simp only [SlotTaken, Trie.getValue_insertNodes]

inductive StoreOp where
  | storeContextBlocks
  | storeBlocksForReuse (pinBlocks : Bool)
  | removeSequence

namespace StoreOp

def run (c : WindowConfig) (requestId : ℕ) (llmRequest : LlmRequest) : StoreOp → Manage PUnit
  | .storeContextBlocks => BatchManager.storeContextBlocks c requestId llmRequest
  | .storeBlocksForReuse pinBlocks => do
      let _ ← BatchManager.storeBlocksForReuse c requestId llmRequest pinBlocks
      pure ⟨⟩
  | .removeSequence => BatchManager.removeSequence c requestId (some llmRequest)

def places (c : WindowConfig) (s : WindowBlockManager) (requestId : ℕ) (llmRequest : LlmRequest) :
    StoreOp → List (List BlockKey × BlockKey × BlockPtr)
  | .storeContextBlocks =>
    match s.sequences.get? requestId, reuseKeys c llmRequest (usableUniqueTokenCount llmRequest) false with
    | some sequence, some blockKeys =>
      storePlaces blockKeys (((sequence.cacheBlockIds 0).take blockKeys.length).takeWhile BlockPtr.isPoolBlock)
    | _, _ => []
  | .storeBlocksForReuse _ =>
    let usableSize :=
      if c.isRecurrentState then min (llmRequest.promptLen - 1) (usableUniqueTokenCount llmRequest)
      else usableUniqueTokenCount llmRequest
    match s.sequences.get? requestId, s.allocatedBlocksPerSeq.get? requestId, reuseKeys c llmRequest usableSize true with
    | some sequence, some blocks, some blockKeys => storePlaces blockKeys (beam0Blocks sequence.beamWidth blocks)
    | _, _, _ => []
  | .removeSequence =>
    match s.sequences.get? requestId, s.allocatedBlocksPerSeq.get? requestId,
        reuseKeys c llmRequest (usableUniqueTokenCount llmRequest) true with
    | some sequence, some blocks, some blockKeys =>
      if storedOnRemoval c sequence.beamWidth llmRequest && !c.isRecurrentState then
        storePlaces blockKeys (beam0Blocks sequence.beamWidth blocks)
      else []
    | _, _, _ => []

end StoreOp

theorem events_foldl_releaseReference (blocks : List BlockPtr) (s : WindowBlockManager) :
    (blocks.foldl releaseReference s).events = s.events := by
  induction blocks generalizing s with
  | nil => rfl
  | cons block blocks ih =>
    rw [foldl_cons, ih]
    unfold releaseReference
    cases block with
    | block id =>
      dsimp only
      split <;> simp
    | placeholder id =>
      dsimp only
      split <;> rfl

theorem storeContextBlocks_eq_ok (hrun : storeContextBlocks c rid req s = .ok ⟨⟩ t) :
    ∃ sequence keys, s.sequences.get? rid = some sequence ∧
      reuseKeys c req (usableUniqueTokenCount req) false = some keys ∧
      t = (s.storeBlocks c keys
        (((sequence.cacheBlockIds 0).take keys.length).takeWhile BlockPtr.isPoolBlock) false).1 := by
  obtain ⟨sequence, u, hget, hrest⟩ := bind_eq_ok hrun
  obtain ⟨rfl, hsequence⟩ := getSequence_eq_ok hget
  cases hkeys : reuseKeys c req (usableUniqueTokenCount req) false with
  | none =>
    rw [hkeys] at hrest
    cases hrest
  | some keys =>
    rw [hkeys] at hrest
    cases hrest
    exact ⟨sequence, keys, hsequence, rfl, rfl⟩

theorem storeBlocksForReuse_eq_ok {pin : Bool} {pinned : List BlockId}
    (h : storeBlocksForReuse c rid req pin s = .ok pinned t) :
    ∃ sequence blocks keys, s.sequences.get? rid = some sequence ∧
      s.allocatedBlocksPerSeq.get? rid = some blocks ∧
      reuseKeys c req
        (if c.isRecurrentState then min (req.promptLen - 1) (usableUniqueTokenCount req)
          else usableUniqueTokenCount req) true = some keys ∧
      (t, pinned) = s.storeBlocks c keys (beam0Blocks sequence.beamWidth blocks) pin := by
  unfold storeBlocksForReuse at h
  generalize (if c.isRecurrentState then min (req.promptLen - 1) (usableUniqueTokenCount req)
    else usableUniqueTokenCount req) = usableSize at h ⊢
  cases hkeys : reuseKeys c req usableSize true with
  | none =>
    rw [hkeys] at h
    cases h
  | some keys =>
    rw [hkeys] at h
    obtain ⟨blocks, u, hget, hrest⟩ := bind_eq_ok h
    obtain ⟨rfl, hblocks⟩ := getAllocatedBlocks_eq_ok hget
    obtain ⟨sequence, v, hget', hstore⟩ := bind_eq_ok hrest
    obtain ⟨rfl, hsequence⟩ := getSequence_eq_ok hget'
    cases hstore
    exact ⟨sequence, blocks, keys, hsequence, hblocks, rfl, rfl⟩

theorem releaseBlocks_eq_ok {beamWidth : ℕ} {req : Option LlmRequest}
    (hrun : releaseBlocks c rid beamWidth req s = .ok ⟨⟩ t) :
    ∃ blocks, s.allocatedBlocksPerSeq.get? rid = some blocks ∧
      ((req = none ∨ c.isRecurrentState = true) ∧
          t = blocks.reverse.foldl releaseReference { s with allocatedBlocksPerSeq := s.allocatedBlocksPerSeq.erase rid } ∨
        ∃ request keys, req = some request ∧ c.isRecurrentState = false ∧
          reuseKeys c request (usableUniqueTokenCount request) true = some keys ∧
          t = blocks.reverse.foldl releaseReference
            (storeBlocks
              { s with allocatedBlocksPerSeq := s.allocatedBlocksPerSeq.erase rid } c keys
              (beam0Blocks beamWidth blocks) false).1) := by
  obtain ⟨blocks, u, hget, hrest⟩ := bind_eq_ok hrun
  obtain ⟨rfl, hblocks⟩ := getAllocatedBlocks_eq_ok hget
  refine ⟨blocks, hblocks, ?_⟩
  cases req with
  | none =>
    cases hrest
    exact .inl ⟨.inl rfl, rfl⟩
  | some request =>
    dsimp only at hrest
    cases hrecurrent : c.isRecurrentState with
    | true =>
      rw [hrecurrent] at hrest
      cases hrest
      exact .inl ⟨.inr rfl, rfl⟩
    | false =>
      rw [hrecurrent] at hrest
      cases hkeys : reuseKeys c request (usableUniqueTokenCount request) true with
      | none =>
        rw [hkeys] at hrest
        cases hrest
      | some keys =>
        rw [hkeys] at hrest
        cases hrest
        exact .inr ⟨request, keys, rfl, rfl, hkeys, rfl⟩

theorem StoreOp.run_events (op : StoreOp) (h : op.run c rid req s = .ok ⟨⟩ t) :
    AttachesAt c s t (op.places c s rid req) := by
  cases op with
  | storeContextBlocks =>
    obtain ⟨sequence, keys, hsequence, hkeys, rfl⟩ := storeContextBlocks_eq_ok h
    unfold places
    rw [hsequence, hkeys]
    exact storeBlocks_events c s keys _ false
  | storeBlocksForReuse pin =>
    obtain ⟨pinned, u, hstore, hpure⟩ := bind_eq_ok h
    cases hpure
    obtain ⟨sequence, blocks, keys, hsequence, hblocks, hkeys, hstored⟩ := storeBlocksForReuse_eq_ok hstore
    have hevents := storeBlocks_events c s keys (beam0Blocks sequence.beamWidth blocks) pin
    rw [← hstored] at hevents
    unfold places
    dsimp only
    rw [hsequence, hblocks, hkeys]
    exact hevents
  | removeSequence =>
    unfold places
    rw [run, BatchManager.removeSequence, get_bind_apply] at h
    cases hsequence : s.sequences.get? rid with
    | none =>
      rw [hsequence] at h
      cases h
      exact ⟨[], by simp⟩
    | some sequence =>
    rw [hsequence] at h
    obtain ⟨blocks, hblocks, hcases⟩ := releaseBlocks_eq_ok h
    rw [hblocks]
    rcases hcases with ⟨hskip, rfl⟩ | ⟨request, keys, hrequest, hrecurrent, hkeys, rfl⟩
    · have hplaces : (storedOnRemoval c sequence.beamWidth req && !c.isRecurrentState) = false := by
        rcases hskip with hfilter | hrecurrent
        · rw [Option.filter_eq_none_iff] at hfilter
          rw [Bool.eq_false_iff.2 (hfilter req rfl), Bool.false_and]
        · rw [hrecurrent, Bool.not_true, Bool.and_false]
      refine ⟨[], by rw [events_foldl_releaseReference, append_nil], by simp, ?_⟩
      cases reuseKeys c req (usableUniqueTokenCount req) true with
      | none => simp
      | some keys => simp [hplaces]
    · obtain ⟨hsame, hstored⟩ := Option.filter_eq_some_iff.1 hrequest
      cases hsame
      have hplaces : (storedOnRemoval c sequence.beamWidth req && !c.isRecurrentState) = true := by
        rw [hstored, hrecurrent]
        rfl
      rw [hkeys, AttachesAt, events_foldl_releaseReference]
      dsimp only
      rw [if_pos hplaces]
      exact storeBlocks_events c _ keys (beam0Blocks sequence.beamWidth blocks) false

theorem StoreOp.of_mem_places (op : StoreOp)
    {place : List BlockKey × BlockKey × BlockPtr} (h : place ∈ op.places c s rid req) :
    (∃ t, op.run c rid req s = .ok ⟨⟩ t) ∧ ∃ start length, coveredTokens c place.1 = List.range' start length ∧
      0 < length ∧ start + length ≤ usableUniqueTokenCount req := by
  have hreuse : ∀ {usableSize allowPartial keys blocks},
      reuseKeys c req usableSize allowPartial = some keys → usableSize ≤ usableUniqueTokenCount req →
      place ∈ storePlaces keys blocks →
      ∃ start length, coveredTokens c place.1 = range' start length ∧ 0 < length ∧
        start + length ≤ usableUniqueTokenCount req := by
    intro usableSize allowPartial keys blocks hkeys hle hmem
    obtain ⟨i, hi⟩ := getElem?_of_mem (of_mem_zip hmem).1
    obtain ⟨key, hkey, hhead, hdepth⟩ := Trie.getElem?_nodesBelow hi
    have hcovered : coveredTokens c place.1 = range' (i * c.tokensPerBlock) key.uniqueTokens.length := by
      generalize place.1 = node at hhead hdepth
      cases node with
      | nil => cases hhead
      | cons key' above =>
        cases hhead
        have habove : above.length = i := by simpa using hdepth
        rw [coveredTokens, habove]
    rw [getElem?_take] at hkey
    split at hkey
    · obtain ⟨chopped, hchop, rfl⟩ := Option.map_eq_some_iff.1 hkeys
      obtain ⟨hlength, hend⟩ := length_of_mem_chopVectorIntoBlocks c.tokensPerBlock_pos hchop (i := i) (by
        rw [← buildBlockKeys_tokens req chopped, getElem?_map, hkey]
        rfl)
      exact ⟨_, _, hcovered, hlength, hend.trans hle⟩
    · cases hkey
  cases op with
  | storeContextBlocks =>
    unfold places at h
    dsimp only at h
    split at h
    · rename_i sequence keys hsequence hkeys
      refine ⟨?_, hreuse hkeys le_rfl h⟩
      unfold run BatchManager.storeContextBlocks
      dsimp only
      rw [bind_ok (getSequence_of_get? hsequence), hkeys]
      exact ⟨_, rfl⟩
    · cases h
  | storeBlocksForReuse pin =>
    unfold places at h
    dsimp only at h
    split at h
    · rename_i sequence blocks keys hsequence hblocks hkeys
      refine ⟨?_, hreuse hkeys ?_ h⟩
      · unfold run BatchManager.storeBlocksForReuse
        dsimp only
        rw [hkeys]
        rw [bind_assoc, bind_ok (getAllocatedBlocks_of_get? hblocks), bind_assoc, bind_ok (getSequence_of_get? hsequence)]
        exact ⟨_, rfl⟩
      split
      · exact min_le_right _ _
      · exact le_rfl
    · cases h
  | removeSequence =>
    unfold places at h
    dsimp only at h
    split at h
    · rename_i sequence blocks keys hsequence hblocks hkeys
      split at h
      · rename_i hstored
        refine ⟨?_, hreuse hkeys le_rfl h⟩
        obtain ⟨hstored, hrecurrent⟩ := Bool.and_eq_true_iff.1 hstored
        have hget : getAllocatedBlocks rid { s with sequences := s.sequences.erase rid } = .ok blocks _ :=
          getAllocatedBlocks_of_get? hblocks
        unfold run BatchManager.removeSequence releaseBlocks
        dsimp only
        rw [get_bind_apply, hsequence]
        dsimp only
        rw [modify_bind_apply, bind_ok hget, Option.filter_some_pos hstored]
        dsimp only
        rw [if_pos hrecurrent, hkeys]
        exact ⟨_, rfl⟩
      · cases h
    · cases h

private def reuseWindow : WindowConfig where
  windowSize := 6
  tokensPerBlock := 2
  tokensPerBlock_pos := Nat.two_pos
  isSWA := false
  isRecurrentState := false
  hasLinearAttentionMetadata := false
  enableBlockReuse := true
  enablePartialReuse := true
  copyOnPartialReuse := true
  cacheType := .self
  numPrimaryBlocks := 4
  numSecondaryBlocks := 0
  secondaryOffloadMinPriority := kDefaultSecondaryOffloadMinPriority
  maxTokenNum := 6
  kvCacheConnector := none

/-! ### Pins -/

namespace BlockManager

/-- The loop of `storeBlocksForReuse`: the ids of a window replace those of the window before it. -/
def storeWindows (requestId : ℕ) (llmRequest : LlmRequest) (pinBlocks : Bool) :
    List BlockId → Trie BlockKey ℕ BlockId → List (WindowConfig × WindowBlockManager) →
      Except String (List BlockId × BlockManager)
  | pinnedBlockIds, lookupTree, [] => .ok (pinnedBlockIds, ⟨lookupTree, []⟩)
  | _, lookupTree, (c, s) :: windows =>
    match BatchManager.storeBlocksForReuse c requestId llmRequest pinBlocks { s with lookupTree } with
    | .error e _ => .error e
    | .ok pinnedBlockIds t =>
      (storeWindows requestId llmRequest pinBlocks pinnedBlockIds t.lookupTree windows).map fun (ids, m) =>
        (ids, { m with windows := (c, t) :: m.windows })

def storeBlocksForReuse (m : BlockManager) (requestId : ℕ) (llmRequest : LlmRequest) (pinBlocks : Bool) :
    Except String (List BlockId × BlockManager) :=
  storeWindows requestId llmRequest pinBlocks [] m.lookupTree m.windows

def unpinBlocksById (m : BlockManager) (blockIds : List BlockId) : Except String BlockManager :=
  match m.windows with
  | [] => .ok m
  | [(c, s)] =>
    match BatchManager.unpinBlocksById c blockIds s with
    | .error e _ => .error e
    | .ok _ t => .ok { m with windows := [(c, t)] }
  | _ => .error ("BlockManager::unpinBlocksById currently only supports single-window managers; " ++
      "multi-window block-ID-keyed retention pinning requires window-qualified handles (TODO).")

def refCounts (m : BlockManager) : List (BlockPtr → ℕ) := m.windows.map fun w => w.2.refCount

end BlockManager

namespace WindowBlockManager

variable {b : BlockId}

def pins (ids : List BlockId) (ptr : BlockPtr) : ℕ := (ids.map BlockPtr.block).count ptr

theorem pins_cons (ids : List BlockId) : pins (b :: ids) = pins ids + pins [b] := by
  funext ptr
  simp [pins, count_cons]

/-- The counts of a state that differs from `s` in one block, and in what holds no counts. -/
theorem refCount_of_update {x : KVCacheBlock} (hblocks : t.allBlocksById = Function.update s.allBlocksById b x)
    (hplaceholders : t.placeholderRefCounts = s.placeholderRefCounts) :
    t.refCount = Function.update s.refCount (.block b) x.refCount := by
  funext ptr
  cases ptr with
  | block id =>
    by_cases hid : id = b <;> simp [hblocks, hid, refCount]
  | placeholder id => exact congrFun hplaceholders id

theorem refCount_eq_of_update {x : KVCacheBlock} {r : BlockPtr → ℕ} (hs : s.refCount = r)
    (hblocks : t.allBlocksById = Function.update s.allBlocksById b x)
    (hplaceholders : t.placeholderRefCounts = s.placeholderRefCounts)
    (hx : x.refCount = (s.allBlocksById b).refCount) : t.refCount = r := by
  rw [refCount_of_update hblocks hplaceholders, hx, ← hs]
  exact Function.update_eq_self _ _

theorem refCount_releaseBlock {toFront : Bool} : (s.releaseBlock b toFront).refCount = s.refCount := by
  unfold releaseBlock startExpiring
  split
  · rfl
  · split
    · rfl
    · exact refCount_eq_of_update (s := s) rfl rfl rfl rfl

theorem refCount_storeBlock {node : List BlockKey} {key : BlockKey} {block : BlockPtr} :
    (s.storeBlock c node key block).1.refCount = s.refCount := by
  cases block with
  | placeholder id => rfl
  | block id =>
    unfold storeBlock
    cases s.lookupTree.getValue node c.windowSize with
    | some existing => rfl
    | none =>
      have hdetach : (s.detachFromLookupNode c id).refCount = s.refCount := by
        unfold detachFromLookupNode
        split
        · rfl
        · exact refCount_eq_of_update (s := s) rfl rfl rfl rfl
      have hkey : ((s.detachFromLookupNode c id).setBlockKey id key
          (decide (key.uniqueTokens.length = c.tokensPerBlock))).refCount = s.refCount :=
        refCount_eq_of_update hdetach rfl rfl rfl
      exact refCount_eq_of_update hkey rfl rfl rfl

theorem refCount_pinBlock : (s.pinBlock b).refCount = s.refCount + pins [b] := by
  have hclaimed : (if s.hasRefs (.block b) then s else s.claimBlock b (some (s.allBlocksById b).priority)
      (s.allBlocksById b).durationMs).refCount = s.refCount := by
    split
    · rfl
    · have hdequeue : (s.dequeue b).refCount = s.refCount := by
        unfold dequeue
        split <;> rfl
      exact refCount_eq_of_update hdequeue rfl rfl rfl
  unfold pinBlock
  generalize (if s.hasRefs (.block b) then s else s.claimBlock b (some (s.allBlocksById b).priority)
      (s.allBlocksById b).durationMs) = u at hclaimed ⊢
  rw [← hclaimed]
  refine .trans (refCount_of_update (s := u) rfl rfl) ?_
  funext ptr
  by_cases hptr : ptr = .block b
  · simp [hptr, pins, refCount]
  · simp [hptr, pins, Ne.symm hptr]

/-- Storing with pins counts exactly the blocks whose ids are returned. -/
theorem refCount_storeBlocksAt (places : List (List BlockKey × BlockKey × BlockPtr)) :
    (storeBlocksAt c true s places).1.refCount = s.refCount + pins (storeBlocksAt c true s places).2 := by
  induction places generalizing s with
  | nil => rfl
  | cons place places ih =>
    obtain ⟨node, key, block⟩ := place
    have hstored : (s.storeBlock c node key block).1.refCount = s.refCount := refCount_storeBlock
    rw [storeBlocksAt]
    cases hstore : s.storeBlock c node key block with
    | mk stored prev =>
      rw [hstore] at hstored
      cases prev with
      | none => exact ih.trans (by rw [hstored])
      | some prevBlock =>
        change (storeBlocksAt c true (stored.pinBlock prevBlock) places).1.refCount = s.refCount + pins (prevBlock :: _)
        rw [ih, refCount_pinBlock, hstored, add_assoc, add_comm (pins [prevBlock]), ← pins_cons]

end WindowBlockManager

variable {b : BlockId} {ids : List BlockId} {r : BlockPtr → ℕ}

theorem refCount_of_storeBlocksForReuse (h : storeBlocksForReuse c rid req true s = .ok ids t) :
    t.refCount = s.refCount + pins ids := by
  obtain ⟨sequence, blocks, keys, -, -, -, hstore⟩ := storeBlocksForReuse_eq_ok h
  unfold storeBlocks at hstore
  dsimp only at hstore
  split at hstore
  · cases hstore
    rfl
  · obtain ⟨rfl, rfl⟩ := Prod.ext_iff.1 hstore
    exact refCount_storeBlocksAt _

theorem dropReference_of_pinned (hs : s.refCount = r + pins [b]) :
    ∃ t, dropReference false (.block b) s = .ok ⟨⟩ t ∧ t.refCount = r := by
  have hcount : s.refCount (.block b) = r (.block b) + 1 := by
    rw [hs]
    simp [pins]
  obtain ⟨u, hdec, hu⟩ : ∃ u, decRefCount (.block b) s = .ok ⟨⟩ u ∧ u.refCount = r := by
    refine ⟨_, if_neg (by omega), .trans (refCount_of_update (s := s) rfl rfl) ?_⟩
    funext ptr
    by_cases hptr : ptr = .block b
    · subst hptr
      rw [Function.update_self]
      exact Nat.sub_eq_of_eq_add hcount
    · simp [hptr, hs, pins, Ne.symm hptr]
  refine ⟨_, bind_ok hdec, ?_⟩
  dsimp only
  split
  · exact hu
  · exact refCount_releaseBlock.trans hu

/-- Unpinning blocks of the pool that are counted as often as they are listed returns. -/
theorem unpinBlocksById_of_pinned (hs : s.refCount = r + pins ids)
    (hids : ∀ id ∈ ids, id < c.numPrimaryBlocks + c.numSecondaryBlocks) :
    ∃ t, unpinBlocksById c ids s = .ok ⟨⟩ t ∧ t.refCount = r := by
  induction ids generalizing s with
  | nil => exact ⟨s, rfl, hs⟩
  | cons id ids ih =>
    obtain ⟨hid, hids⟩ := forall_mem_cons.1 hids
    rw [pins_cons, ← add_assoc] at hs
    obtain ⟨u, hdrop, hu⟩ := dropReference_of_pinned hs
    obtain ⟨t, hrest, ht⟩ := ih hu hids
    refine ⟨t, .trans (forM_cons_ok ?_) hrest, ht⟩
    rw [if_neg (not_le.2 hid)]
    exact hdrop

theorem lt_of_unpinBlocksById (h : unpinBlocksById c ids s = .ok ⟨⟩ t) :
    ∀ id ∈ ids, id < c.numPrimaryBlocks + c.numSecondaryBlocks := by
  induction ids generalizing s with
  | nil => exact fun _ => by simp
  | cons id ids ih =>
    obtain ⟨_, u, hhead, hrest⟩ := bind_eq_ok h
    refine forall_mem_cons.2 ⟨?_, ih hrest⟩
    by_contra hout
    dsimp only at hhead
    rw [if_pos (not_lt.1 hout)] at hhead
    cases hhead

namespace BlockManager

variable {m : BlockManager} {tree : Trie BlockKey ℕ BlockId} {windows : List (WindowConfig × WindowBlockManager)}
  {pin : Bool} {start : List BlockId}

theorem storeWindows_cons (h : storeWindows rid req pin start tree ((c, s) :: windows) = .ok (ids, m)) :
    ∃ found t rest, BatchManager.storeBlocksForReuse c rid req pin { s with lookupTree := tree } = .ok found t ∧
      storeWindows rid req pin found t.lookupTree windows = .ok (ids, rest) ∧
      m = { rest with windows := (c, t) :: rest.windows } := by
  rw [storeWindows] at h
  cases hstore : BatchManager.storeBlocksForReuse c rid req pin { s with lookupTree := tree } with
  | error e t =>
    rw [hstore] at h
    cases h
  | ok found t =>
    simp only [hstore] at h
    cases hrest : storeWindows rid req pin found t.lookupTree windows with
    | error e =>
      rw [hrest] at h
      cases h
    | ok result =>
      rw [hrest] at h
      cases h
      exact ⟨found, t, result.2, rfl, hrest, rfl⟩

/-- `unpinBlocksById` undoes the pins of `storeBlocksForReuse` just if there is at most one window and every block
pinned in it is one of the pool: placeholders of linear attention are not known by their id. -/
theorem unpin_undoes_iff (m m' : BlockManager) (requestId : ℕ) (llmRequest : LlmRequest) (blockIds : List BlockId)
    (hpin : m.storeBlocksForReuse requestId llmRequest true = .ok (blockIds, m')) :
    (∃ m'', m'.unpinBlocksById blockIds = .ok m'' ∧ m''.refCounts = m.refCounts) ↔
      m.windows.length ≤ 1 ∧
        ∀ w ∈ m.windows, ∀ id ∈ blockIds, id < w.1.numPrimaryBlocks + w.1.numSecondaryBlocks := by
  obtain ⟨tree, windows⟩ := m
  match windows with
  | [] =>
    cases hpin
    exact iff_of_true ⟨_, rfl, rfl⟩ ⟨Nat.zero_le 1, by simp⟩
  | [(c, s)] =>
    obtain ⟨_, t, _, hstore, hrest, rfl⟩ := storeWindows_cons hpin
    cases hrest
    rw [and_iff_right (by simp), forall_mem_singleton]
    constructor
    · rintro ⟨m'', hunpin, -⟩
      cases hrun : BatchManager.unpinBlocksById c blockIds t with
      | error e u =>
        simp only [unpinBlocksById, hrun] at hunpin
        cases hunpin
      | ok _ u => exact lt_of_unpinBlocksById hrun
    · intro hids
      have hcounts := refCount_of_storeBlocksForReuse hstore
      obtain ⟨u, hunpin, hu⟩ := unpinBlocksById_of_pinned hcounts hids
      refine ⟨⟨t.lookupTree, [(c, u)]⟩, by simp only [unpinBlocksById, hunpin], ?_⟩
      rw [refCounts, map_singleton, hu]
      rfl
  | (c₁, s₁) :: (c₂, s₂) :: windows =>
    -- The loop leaves at least two windows, and unpinning refuses them.
    obtain ⟨_, _, _, -, hrest, rfl⟩ := storeWindows_cons hpin
    obtain ⟨_, _, _, -, -, rfl⟩ := storeWindows_cons hrest
    refine iff_of_false ?_ fun h => absurd h.1 (by simp)
    rintro ⟨_, hunpin, -⟩
    cases hunpin

private def admitted (windowSizes : List ℕ) : BlockManager :=
  ⟨.empty, windowSizes.map fun windowSize =>
    let c := { reuseWindow with windowSize }
    (c, match admitBatch c [⟨plain 1 [5, 6, 7, 8, 9] 0, 5, 1, Nat.one_pos⟩] (initial c) with
      | .ok _ s => s
      | .error _ s => s)⟩

theorem unpin_undoes_one_window :
    ∃ m', (admitted [6]).storeBlocksForReuse 1 (plain 1 [5, 6, 7, 8, 9] 0) true = .ok ([0, 1], m') ∧
      ∃ m'', m'.unpinBlocksById [0, 1] = .ok m'' ∧ m''.refCounts = (admitted [6]).refCounts := by
  have hids : ((admitted [6]).storeBlocksForReuse 1 (plain 1 [5, 6, 7, 8, 9] 0) true).toOption.map Prod.fst =
      some [0, 1] := by
    decide +kernel
  cases hstore : (admitted [6]).storeBlocksForReuse 1 (plain 1 [5, 6, 7, 8, 9] 0) true with
  | error e =>
    rw [hstore] at hids
    cases hids
  | ok result =>
    rw [hstore] at hids
    obtain ⟨ids, m'⟩ := result
    obtain rfl : ids = [0, 1] := Option.some.inj hids
    exact ⟨m', rfl, (unpin_undoes_iff _ _ _ _ _ hstore).2 (by decide +kernel)⟩

theorem unpin_refuses_two_windows :
    ((admitted [4, 6]).storeBlocksForReuse 1 (plain 1 [5, 6, 7, 8, 9] 0) true).toOption.map
      (fun (ids, m') => (ids, m'.refCounts.map fun refCount => refCount (.block 0), (m'.unpinBlocksById ids).toOption.isSome)) =
        some ([0, 1], [2, 2], false) := by
  decide +kernel

end BlockManager

end TrtLlm.BatchManager
