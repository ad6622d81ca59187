import TrtLlm.BatchManager.WindowBlockManager

/-!
# Adding and removing tokens

`addToken` detaches the blocks in front of the window and allocates one for a token that starts a block. `removeToken`
releases the last block whenever the length modulo the window size is a multiple of the block size, and brings no
detached block back. The removals undo the additions only where these tests agree with the block boundaries and the
block that comes back into the window is still there.
-/

namespace TrtLlm.BatchManager

open List WindowBlockManager

def releaseLastBlock (requestId : ℕ) : Manage PUnit := do
  let blocks ← getAllocatedBlocks requestId
  match blocks.getLast? with
  | none => throw "vector::back"
  | some block =>
    dropReference true block
    setAllocatedBlocks requestId blocks.dropLast
    let sequence ← getSequence requestId
    setSequence requestId { sequence with cacheBlockIds := fun beamIdx => (sequence.cacheBlockIds beamIdx).dropLast }

def removeToken (c : WindowConfig) (requestId : ℕ) : Manage PUnit := do
  let sequence ← getSequence requestId
  if sequence.numTokens ≠ 0 then
    if sequence.beamWidth ≠ 1 then throw "[kv cache manager] removeToken does not support beamWidth > 1"
    setSequence requestId { sequence with numTokens := sequence.numTokens - 1 }
    if (sequence.numTokens - 1) % c.windowSize % c.tokensPerBlock = 0 then
      releaseLastBlock requestId

/-- The managers of all windows, which share one lookup tree. -/
structure BlockManager where
  lookupTree : Trie BlockKey ℕ BlockId
  windows : List (WindowConfig × WindowBlockManager)

def forWindows (op : WindowConfig → Manage PUnit) (lookupTree : Trie BlockKey ℕ BlockId) :
    List (WindowConfig × WindowBlockManager) → Except String BlockManager
  | [] => .ok ⟨lookupTree, []⟩
  | (c, s) :: windows =>
    match op c { s with lookupTree } with
    | .error e _ => .error e
    | .ok _ t =>
      match forWindows op t.lookupTree windows with
      | .error e => .error e
      | .ok m => .ok { m with windows := (c, t) :: m.windows }

inductive TokenOp where
  | addToken
  | removeToken
deriving DecidableEq

def TokenOp.run (op : TokenOp) (requestId : ℕ) (m : BlockManager) : Except String BlockManager :=
  forWindows (fun c => match op with
    | .addToken => BatchManager.addToken c requestId
    | .removeToken => BatchManager.removeToken c requestId) m.lookupTree m.windows

/-! ### What one operation does to the lists of a sequence -/

/-- A sequence of beam width 1 with `n` tokens and the block list `ids`, which references the blocks `blocks`. -/
structure Holds (s : WindowBlockManager) (requestId n : ℕ) (ids blocks : List BlockPtr) : Prop where
  sequence : ∃ sequence, s.sequences.get? requestId = some sequence ∧ sequence.numTokens = n ∧
    sequence.beamWidth = 1 ∧ sequence.cacheBlockIds 0 = ids
  allocated : s.allocatedBlocksPerSeq.get? requestId = some blocks

section Steps

variable {c : WindowConfig} {rid n : ℕ} {s t : WindowBlockManager} {ids blocks : List BlockPtr}

theorem Holds.of_lists (h : Holds s rid n ids blocks) (hlists : t.lists = s.lists) : Holds t rid n ids blocks := by
  obtain ⟨hsequences, hallocated⟩ := Prod.mk.inj hlists
  exact ⟨hsequences ▸ h.sequence, hallocated ▸ h.allocated⟩

theorem Holds.unique {n' : ℕ} {ids' blocks' : List BlockPtr} (h : Holds s rid n ids blocks)
    (h' : Holds s rid n' ids' blocks') : n = n' ∧ ids = ids' ∧ blocks = blocks' := by
  obtain ⟨⟨q, hq, rfl, -, rfl⟩, hb⟩ := h
  obtain ⟨⟨q', hq', rfl, -, rfl⟩, hb'⟩ := h'
  cases hq.symm.trans hq'
  exact ⟨rfl, rfl, Option.some.inj (hb.symm.trans hb')⟩

def entries (requestId : ℕ) (s : WindowBlockManager) : Option (ℕ × ℕ × List BlockPtr) × Option (List BlockPtr) :=
  ((s.sequences.get? requestId).map fun q => (q.numTokens, q.beamWidth, q.cacheBlockIds 0),
    s.allocatedBlocksPerSeq.get? requestId)

theorem holds_of_entries (hentries : entries rid s = (some (n, 1, ids), some blocks)) : Holds s rid n ids blocks := by
  obtain ⟨hsequence, hallocated⟩ := Prod.mk.inj hentries
  obtain ⟨q, hq, hfields⟩ := Option.map_eq_some_iff.1 hsequence
  obtain ⟨hn, hfields⟩ := Prod.mk.inj hfields
  obtain ⟨hbeam, hids⟩ := Prod.mk.inj hfields
  exact ⟨⟨q, hq, hn, hbeam, hids⟩, hallocated⟩

variable {q : GenerationRequest} {block : BlockPtr}

theorem holds_insert (hbeam : q.beamWidth = 1) (hallocated : s.allocatedBlocksPerSeq.get? rid = some blocks) :
    Holds { s with sequences := s.sequences.insert rid q } rid q.numTokens (q.cacheBlockIds 0) blocks :=
  ⟨⟨q, Dict.get?_insert_self _ _ _, rfl, hbeam, rfl⟩, hallocated⟩

theorem lists_of_dropReference {toFront : Bool} (hrun : dropReference toFront block s = .ok ⟨⟩ t) : t.lists = s.lists := by
  obtain ⟨_, u, hdec, hrelease⟩ := bind_eq_ok hrun
  have hu : u.lists = s.lists := by
    unfold decRefCount at hdec
    split at hdec
    · cases hdec
    · cases hdec
      cases block <;> rfl
  cases hrelease
  rw [← hu]
  cases block <;> simp only [releasePtr] <;> split <;> simp

variable (h : Holds s rid n ids blocks)

include h

theorem holds_of_detachFrontBlock (hq : s.sequences.get? rid = some q)
    (hrun : detachFrontBlock rid s = .ok ⟨⟩ t) :
    ∃ placeholder, Holds t rid n ids (blocks.set q.numFrontBlocksRemoved (.placeholder placeholder)) := by
  obtain ⟨⟨q', hq', hn, hbeam, hids⟩, hblocks⟩ := h
  cases hq.symm.trans hq'
  rw [detachFrontBlock, bind_ok (getSequence_of_get? hq)] at hrun
  dsimp only at hrun
  rw [if_neg (not_not.2 hbeam), bind_ok (getAllocatedBlocks_of_get? hblocks)] at hrun
  cases hblock : blocks[q.numFrontBlocksRemoved]? with
  | none =>
    simp only [hblock] at hrun
    cases hrun
  | some block =>
    simp only [hblock] at hrun
    obtain ⟨_, s₁, hplaceholder, hrun⟩ := bind_eq_ok hrun
    cases hplaceholder
    obtain ⟨_, s₂, hset, hrun⟩ := bind_eq_ok hrun
    cases hset
    obtain ⟨_, s₃, hmodify, hrun⟩ := bind_eq_ok hrun
    obtain ⟨_, s₄, hdrop, hrun⟩ := bind_eq_ok hrun
    cases hrun
    have hallocated := (Prod.mk.inj (lists_of_dropReference hdrop)).2
    cases hmodify
    refine ⟨s.numPlaceholders, ⟨_, Dict.get?_insert_self _ _ _, hn, hbeam, hids⟩, ?_⟩
    cases block <;> exact (congrArg (·.get? rid) hallocated).trans (Dict.get?_insert_self _ _ _)

theorem holds_of_detachFrontBlocks {rounds : ℕ} (hrun : detachFrontBlocks c rid rounds s = .ok ⟨⟩ t) :
    ∃ blocks', Holds t rid n ids blocks' ∧ blocks'.length = blocks.length ∧
      ∀ k, n < (k + 1) * c.tokensPerBlock + c.windowSize → blocks'[k]? = blocks[k]? := by
  induction rounds generalizing s blocks with
  | zero =>
    cases hrun
    exact ⟨blocks, h, rfl, fun _ _ => rfl⟩
  | succ rounds ih =>
    obtain ⟨q, hq, hn, -, -⟩ := h.sequence
    rw [detachFrontBlocks, bind_ok (getSequence_of_get? hq)] at hrun
    split at hrun
    · obtain ⟨_, s₁, hdetach, hrun⟩ := bind_eq_ok hrun
      obtain ⟨placeholder, h₁⟩ := holds_of_detachFrontBlock h hq hdetach
      obtain ⟨blocks', h', hlen, hkept⟩ := ih h₁ hrun
      refine ⟨blocks', h', by rw [hlen, length_set], fun k hk => ?_⟩
      have hne : q.numFrontBlocksRemoved ≠ k := by
        rintro rfl
        rw [add_mul] at hk
        omega
      rw [hkept k hk, getElem?_set_ne hne]
    · cases hrun
      exact ⟨blocks, h, rfl, fun _ _ => rfl⟩

theorem holds_of_addBlockToBeam (hrun : addBlockToBeam block rid 0 s = .ok ⟨⟩ t) :
    Holds t rid n (ids ++ [block]) (blocks ++ [block]) := by
  have h₁ := h.of_lists (lists_incRefCount s block)
  obtain ⟨q, hq, hn, hbeam, rfl⟩ := h₁.sequence
  rw [addBlockToBeam, modify_bind_apply, bind_ok (getSequence_of_get? hq)] at hrun
  obtain ⟨_, s₂, hset, hrun⟩ := bind_eq_ok hrun
  cases hset
  obtain ⟨blocks', s₃, hget, hrun⟩ := bind_eq_ok hrun
  obtain ⟨rfl, hblocks⟩ := getAllocatedBlocks_eq_ok hget
  cases h₁.allocated.symm.trans hblocks
  cases hrun
  exact ⟨⟨_, Dict.get?_insert_self _ _ _, hn, hbeam, by simp⟩, Dict.get?_insert_self _ _ _⟩

theorem holds_of_allocateBlock (hrun : allocateBlock c rid true s = .ok ⟨⟩ t) :
    ∃ block, Holds t rid n (ids ++ [.block block]) (blocks ++ [.block block]) := by
  obtain ⟨q, hq, hn, hbeam, -⟩ := h.sequence
  rw [allocateBlock, bind_ok (getSequence_of_get? hq)] at hrun
  obtain ⟨enough, s₁, henough, hrun⟩ := bind_eq_ok hrun
  have hs₁ : s₁ = s := by
    unfold hasFreeBlocks at henough
    rw [get_bind_apply] at henough
    split at henough
    · cases henough
    · cases henough
      rfl
  subst hs₁
  cases enough with
  | false => cases hrun
  | true =>
    obtain ⟨block, s₂, hfree, hrun⟩ := bind_eq_ok hrun
    rw [hbeam] at hrun
    obtain ⟨_, s₃, hadd, hrun⟩ := bind_eq_ok hrun
    cases hrun
    have hlists : s₂.lists = s₁.lists := by
      unfold getFreeBlock at hfree
      split at hfree
      · cases hfree
      split at hfree
      · split at hfree
        · cases hfree
        · cases hfree
          simp [takeBlock, offloadInto]
      · cases hfree
        simp [takeBlock]
    exact ⟨block, holds_of_addBlockToBeam (h.of_lists hlists) hadd⟩

theorem holds_of_addToken (hrun : addToken c rid s = .ok ⟨⟩ t) :
    ∃ blocks', blocks'.length = blocks.length ∧
      (∀ k, n + 1 < (k + 1) * c.tokensPerBlock + c.windowSize → blocks'[k]? = blocks[k]?) ∧
      if n % c.tokensPerBlock = 0 then
        ∃ block, Holds t rid (n + 1) (ids ++ [.block block]) (blocks' ++ [.block block])
      else Holds t rid (n + 1) ids blocks' := by
  obtain ⟨q, hq, rfl, hbeam, rfl⟩ := h.sequence
  rw [addToken, bind_ok (getSequence_of_get? hq)] at hrun
  obtain ⟨_, s₁, hset, hrun⟩ := bind_eq_ok hrun
  cases hset
  have hget := Dict.get?_insert_self s.sequences rid { q with numTokens := q.numTokens + 1 }
  rw [adjustBlocksIfNeeded, bind_ok (getSequence_of_get? hget)] at hrun
  obtain ⟨_, s₂, hdetach, hrun⟩ := bind_eq_ok hrun
  have h₁ := holds_insert (q := { q with numTokens := q.numTokens + 1 }) hbeam h.allocated
  obtain ⟨blocks', h', hlen, hkept⟩ := holds_of_detachFrontBlocks h₁ hdetach
  refine ⟨blocks', hlen, hkept, ?_⟩
  simp only [Nat.add_sub_cancel, hbeam] at hrun
  split_ifs at hrun ⊢
  · exact holds_of_allocateBlock h' hrun
  · cases hrun
    exact h'

theorem holds_of_releaseLastBlock (hrun : releaseLastBlock rid s = .ok ⟨⟩ t) :
    Holds t rid n ids.dropLast blocks.dropLast := by
  rw [releaseLastBlock, bind_ok (getAllocatedBlocks_of_get? h.allocated)] at hrun
  cases hlast : blocks.getLast? with
  | none =>
    simp only [hlast] at hrun
    cases hrun
  | some block =>
    simp only [hlast] at hrun
    obtain ⟨_, s₁, hdrop, hrun⟩ := bind_eq_ok hrun
    obtain ⟨q, hq, hn, hbeam, rfl⟩ := (h.of_lists (lists_of_dropReference hdrop)).sequence
    obtain ⟨_, s₂, hset, hrun⟩ := bind_eq_ok hrun
    cases hset
    obtain ⟨q', s₃, hget, hrun⟩ := bind_eq_ok hrun
    obtain ⟨rfl, hq'⟩ := getSequence_eq_ok hget
    cases hq.symm.trans hq'
    cases hrun
    exact ⟨⟨_, Dict.get?_insert_self _ _ _, hn, hbeam, rfl⟩, Dict.get?_insert_self _ _ _⟩

omit h

def removed (c : WindowConfig) (n : ℕ) (list : List BlockPtr) : List BlockPtr :=
  if n % c.windowSize % c.tokensPerBlock = 0 then list.dropLast else list

theorem holds_of_removeToken (h : Holds s rid (n + 1) ids blocks) (hrun : removeToken c rid s = .ok ⟨⟩ t) :
    Holds t rid n (removed c n ids) (removed c n blocks) := by
  obtain ⟨q, hq, hn, hbeam, rfl⟩ := h.sequence
  rw [removeToken, bind_ok (getSequence_of_get? hq)] at hrun
  rw [if_pos (by rw [hn]; exact Nat.succ_ne_zero n), if_neg (not_not.2 hbeam)] at hrun
  obtain ⟨_, s₁, hset, hrun⟩ := bind_eq_ok hrun
  cases hset
  have hpred : q.numTokens - 1 = n := by rw [hn, Nat.add_sub_cancel]
  rw [hpred] at hrun
  have h₁ := holds_insert (q := { q with numTokens := q.numTokens - 1 }) hbeam h.allocated
  rw [hpred] at h₁
  unfold removed
  split_ifs at hrun ⊢
  · exact holds_of_releaseLastBlock h₁ hrun
  · cases hrun
    exact h₁

end Steps

/-! ### The block list covers the window -/

def Backed (ids blocks : List BlockPtr) (k : ℕ) : Prop :=
  ∃ block, ids[k]? = some (.block block) ∧ blocks[k]? = some (.block block)

/-- With `n` tokens the lists have an entry for every block of tokens, and the entries of the window are backed. -/
structure Covers (c : WindowConfig) (n : ℕ) (ids blocks : List BlockPtr) : Prop where
  length_ids : ids.length = (n + c.tokensPerBlock - 1) / c.tokensPerBlock
  length_blocks : blocks.length = (n + c.tokensPerBlock - 1) / c.tokensPerBlock
  backed : ∀ p < n, n + 1 ≤ p + c.windowSize → Backed ids blocks (p / c.tokensPerBlock)

/-- Removing a token from these lists releases a block at the block boundaries only, and the block that comes back into
the window is still backed. -/
def RemovalSafe (c : WindowConfig) (n : ℕ) (ids blocks : List BlockPtr) : Prop :=
  0 < n → ((n - 1) % c.windowSize % c.tokensPerBlock = 0 ↔ (n - 1) % c.tokensPerBlock = 0) ∧
    (2 ≤ c.windowSize → c.windowSize ≤ n → Backed ids blocks ((n - c.windowSize) / c.tokensPerBlock))

section Coverage

variable {c : WindowConfig} {rid n : ℕ} {s t : WindowBlockManager} {ids blocks : List BlockPtr}

theorem numBlocks_succ (c : WindowConfig) (n : ℕ) :
    (n + 1 + c.tokensPerBlock - 1) / c.tokensPerBlock = n / c.tokensPerBlock + 1 := by
  rw [show n + 1 + c.tokensPerBlock - 1 = n + c.tokensPerBlock by omega, Nat.add_div_right _ c.tokensPerBlock_pos]

theorem numBlocks_eq (c : WindowConfig) (n : ℕ) :
    (n + c.tokensPerBlock - 1) / c.tokensPerBlock = n / c.tokensPerBlock + (if n % c.tokensPerBlock = 0 then 0 else 1) := by
  have hpos := c.tokensPerBlock_pos
  cases n with
  | zero => simp [hpos]
  | succ n =>
    rw [numBlocks_succ, Nat.succ_div]
    simp only [Nat.dvd_iff_mod_eq_zero]
    split <;> rfl

theorem covers_of_addToken {blocks' : List BlockPtr} (hcovers : Covers c n ids blocks)
    (hlen : blocks'.length = blocks.length)
    (hkept : ∀ k, n + 1 < (k + 1) * c.tokensPerBlock + c.windowSize → blocks'[k]? = blocks[k]?) :
    if n % c.tokensPerBlock = 0 then ∀ block, Covers c (n + 1) (ids ++ [.block block]) (blocks' ++ [.block block])
    else Covers c (n + 1) ids blocks' := by
  have hold : ∀ p < n, n + 1 ≤ p + c.windowSize → Backed ids blocks' (p / c.tokensPerBlock) := by
    intro p hp hin
    obtain ⟨block, hid, hblock⟩ := hcovers.backed p hp hin
    have hlt := Nat.lt_mul_div_succ p c.tokensPerBlock_pos
    rw [mul_comm] at hlt
    exact ⟨block, hid, (hkept _ (by omega)).trans hblock⟩
  have hids := hcovers.length_ids
  have hblocks := hlen.trans hcovers.length_blocks
  rw [numBlocks_eq] at hids hblocks
  split
  · rename_i hboundary
    rw [if_pos hboundary, add_zero] at hids hblocks
    intro block
    refine ⟨by rw [numBlocks_succ, ← hids]; simp, by rw [numBlocks_succ, ← hblocks]; simp, fun p hp hin => ?_⟩
    rcases Nat.lt_succ_iff_lt_or_eq.1 hp with hlt | rfl
    · obtain ⟨old, hid, hblock⟩ := hold p hlt (by omega)
      refine ⟨old, ?_, ?_⟩
      · rw [List.getElem?_append_left (List.getElem?_eq_some_iff.1 hid).1, hid]
      · rw [List.getElem?_append_left (List.getElem?_eq_some_iff.1 hblock).1, hblock]
    · exact ⟨block, by rw [← hids, getElem?_concat_length], by rw [← hblocks, getElem?_concat_length]⟩
  · rename_i hinside
    rw [if_neg hinside] at hids hblocks
    refine ⟨hids.trans (numBlocks_succ c n).symm, hblocks.trans (numBlocks_succ c n).symm, fun p hp hin => ?_⟩
    rcases Nat.lt_succ_iff_lt_or_eq.1 hp with hlt | rfl
    · exact hold p hlt (by omega)
    · -- a token inside a block lies in the block of the token before it
      obtain ⟨m, rfl⟩ := Nat.exists_eq_succ_of_ne_zero (fun h : p = 0 => hinside (by rw [h, Nat.zero_mod]))
      rw [Nat.succ_div, if_neg (mt Nat.mod_eq_zero_of_dvd hinside)]
      exact hold m (Nat.lt_succ_self m) (by omega)

theorem covers_take_iff {m : ℕ} (h : Covers c (n + 1) ids blocks) (hm : m ≤ n / c.tokensPerBlock + 1) :
    Covers c n (ids.take m) (blocks.take m) ↔ m = (n + c.tokensPerBlock - 1) / c.tokensPerBlock ∧
      (2 ≤ c.windowSize → c.windowSize ≤ n + 1 → Backed ids blocks ((n + 1 - c.windowSize) / c.tokensPerBlock)) := by
  have hids := h.length_ids
  have hblocks := h.length_blocks
  rw [numBlocks_succ] at hids hblocks
  have hlen : (ids.take m).length = m := by rw [length_take]; omega
  have hlen' : (blocks.take m).length = m := by rw [length_take]; omega
  have htake : m = (n + c.tokensPerBlock - 1) / c.tokensPerBlock → ∀ p < n,
      (Backed (ids.take m) (blocks.take m) (p / c.tokensPerBlock) ↔ Backed ids blocks (p / c.tokensPerBlock)) := by
    rintro rfl p hp
    have hlt : p / c.tokensPerBlock < (n + c.tokensPerBlock - 1) / c.tokensPerBlock := by
      rw [Nat.lt_iff_add_one_le, Nat.le_div_iff_mul_le c.tokensPerBlock_pos, Nat.add_mul]
      have := Nat.div_mul_le_self p c.tokensPerBlock
      omega
    simp only [Backed, getElem?_take_of_lt hlt]
  constructor
  · intro hnew
    have hlength := hlen.symm.trans hnew.length_ids
    refine ⟨hlength, fun h2 hle => ?_⟩
    exact (htake hlength _ (by omega)).1 (hnew.backed _ (by omega) (by omega))
  · rintro ⟨hlength, hback⟩
    refine ⟨hlen.trans hlength, hlen'.trans hlength, fun p hp hin => (htake hlength p hp).2 ?_⟩
    by_cases hwas : n + 1 + 1 ≤ p + c.windowSize
    · exact h.backed p (by omega) hwas
    · obtain rfl : p = n + 1 - c.windowSize := by omega
      exact hback (by omega) (by omega)

theorem covers_of_removeToken_iff (h : Covers c (n + 1) ids blocks) :
    Covers c n (removed c n ids) (removed c n blocks) ↔ RemovalSafe c (n + 1) ids blocks := by
  have hids := h.length_ids
  have hblocks := h.length_blocks
  rw [numBlocks_succ] at hids hblocks
  have hsafe : RemovalSafe c (n + 1) ids blocks ↔
      (n % c.windowSize % c.tokensPerBlock = 0 ↔ n % c.tokensPerBlock = 0) ∧ (2 ≤ c.windowSize →
        c.windowSize ≤ n + 1 → Backed ids blocks ((n + 1 - c.windowSize) / c.tokensPerBlock)) := by
    simp [RemovalSafe]
  rw [hsafe]
  unfold removed
  split
  · rename_i hboundary
    rw [dropLast_eq_take, dropLast_eq_take, hids, hblocks, Nat.add_sub_cancel,
      covers_take_iff h (Nat.le_succ _), numBlocks_eq]
    simp [hboundary]
  · rename_i hinside
    have hwhole := covers_take_iff h le_rfl
    rw [← hids, take_length, hids, ← hblocks, take_length, hblocks, numBlocks_eq] at hwhole
    rw [hwhole]
    simp [hinside]

end Coverage

/-- In this window the lists of the sequence cover its tokens. -/
def WindowOk (requestId : ℕ) (w : WindowConfig × WindowBlockManager) : Prop :=
  ∃ n ids blocks, Holds w.2 requestId n ids blocks ∧ Covers w.1 n ids blocks

def WindowSafe (requestId : ℕ) (w : WindowConfig × WindowBlockManager) : Prop :=
  ∀ n ids blocks, Holds w.2 requestId n ids blocks → RemovalSafe w.1 n ids blocks

/-- A token operation on the sequence, or anything else that leaves the lists of the sequence alone. -/
inductive Step (requestId : ℕ) : Option TokenOp → BlockManager → BlockManager → Prop where
  | token {op : TokenOp} {m m' : BlockManager} : op.run requestId m = .ok m' → Step requestId (some op) m m'
  | other {m m' : BlockManager} :
      List.Forall₂ (fun w w' => w'.1 = w.1 ∧ w'.2.sequences.get? requestId = w.2.sequences.get? requestId ∧
        w'.2.allocatedBlocksPerSeq.get? requestId = w.2.allocatedBlocksPerSeq.get? requestId) m.windows m'.windows →
      Step requestId none m m'

def Runs (requestId : ℕ) : BlockManager → List (Option TokenOp × BlockManager) → Prop
  | _, [] => True
  | m, (op, m') :: steps => Step requestId op m m' ∧ Runs requestId m' steps

/-- Every removal of the run starts in a state where it is safe in every window. -/
def RemovalsSafe (requestId : ℕ) : BlockManager → List (Option TokenOp × BlockManager) → Prop
  | _, [] => True
  | m, (op, m') :: steps =>
    (op = some .removeToken → ∀ w ∈ m.windows, WindowSafe requestId w) ∧ RemovalsSafe requestId m' steps

section Runs

variable {rid : ℕ} {lookupTree : Trie BlockKey ℕ BlockId}

theorem windowOk_of_addToken {c : WindowConfig} {s t : WindowBlockManager} (hok : WindowOk rid (c, s))
    (hrun : addToken c rid { s with lookupTree } = .ok ⟨⟩ t) : WindowOk rid (c, t) := by
  obtain ⟨n, ids, blocks, hholds, hcovers⟩ := hok
  obtain ⟨blocks', hlen, hkept, hnew⟩ := holds_of_addToken (hholds.of_lists (t := { s with lookupTree }) rfl) hrun
  have hcovers' := covers_of_addToken hcovers hlen hkept
  split_ifs at hnew hcovers'
  · obtain ⟨block, hnew⟩ := hnew
    exact ⟨_, _, _, hnew, hcovers' block⟩
  · exact ⟨_, _, _, hnew, hcovers'⟩

variable {w : WindowConfig × WindowBlockManager} {m : BlockManager}

theorem windowOk_iff_of_holds {n : ℕ} {ids blocks : List BlockPtr}
    (hholds : Holds w.2 rid n ids blocks) : WindowOk rid w ↔ Covers w.1 n ids blocks := by
  constructor
  · rintro ⟨n', ids', blocks', hholds', hcovers⟩
    obtain ⟨rfl, rfl, rfl⟩ := hholds.unique hholds'
    exact hcovers
  · exact fun hcovers => ⟨n, ids, blocks, hholds, hcovers⟩

theorem windowOk_of_removeToken_iff {c : WindowConfig} {s t : WindowBlockManager} (hok : WindowOk rid (c, s))
    (hrun : removeToken c rid { s with lookupTree } = .ok ⟨⟩ t) :
    WindowOk rid (c, t) ↔ WindowSafe rid (c, s) := by
  obtain ⟨n, ids, blocks, hholds, hcovers⟩ := hok
  have hsafe : WindowSafe rid (c, s) ↔ RemovalSafe c n ids blocks := by
    refine ⟨fun hsafe => hsafe n ids blocks hholds, fun hsafe n' ids' blocks' hholds' => ?_⟩
    obtain ⟨rfl, rfl, rfl⟩ := hholds.unique hholds'
    exact hsafe
  rw [hsafe]
  replace hholds := hholds.of_lists (t := { s with lookupTree }) rfl
  cases n with
  | zero =>
    obtain ⟨q, hq, hn, -, -⟩ := hholds.sequence
    rw [removeToken, bind_ok (getSequence_of_get? hq)] at hrun
    rw [if_neg (not_not.2 hn)] at hrun
    cases hrun
    exact iff_of_true ⟨0, ids, blocks, hholds, hcovers⟩ fun h => absurd h (lt_irrefl 0)
  | succ n =>
    rw [← covers_of_removeToken_iff hcovers]
    exact windowOk_iff_of_holds (holds_of_removeToken hholds hrun)

theorem forall₂_of_forWindows {op : WindowConfig → Manage PUnit} {windows : List (WindowConfig × WindowBlockManager)}
    (h : forWindows op lookupTree windows = .ok m) :
    List.Forall₂ (fun w w' => w'.1 = w.1 ∧ ∃ lookupTree, op w.1 { w.2 with lookupTree } = .ok ⟨⟩ w'.2) windows m.windows := by
  induction windows generalizing lookupTree m with
  | nil =>
    cases h
    exact .nil
  | cons w windows ih =>
    obtain ⟨c, s⟩ := w
    simp only [forWindows] at h
    cases hop : op c { s with lookupTree } with
    | error e t =>
      simp only [hop] at h
      cases h
    | ok u t =>
      simp only [hop] at h
      cases hrest : forWindows op t.lookupTree windows with
      | error e =>
        simp only [hrest] at h
        cases h
      | ok m₁ =>
        simp only [hrest] at h
        cases h
        exact .cons ⟨rfl, lookupTree, hop⟩ (ih hrest)

theorem forall_iff_of_forall₂ {P S : WindowConfig × WindowBlockManager → Prop}
    {R : WindowConfig × WindowBlockManager → WindowConfig × WindowBlockManager → Prop}
    {windows windows' : List (WindowConfig × WindowBlockManager)} (hR : List.Forall₂ R windows windows')
    (hstep : ∀ w w', R w w' → P w → (P w' ↔ S w)) (hP : ∀ w ∈ windows, P w) :
    (∀ w ∈ windows', P w) ↔ ∀ w ∈ windows, S w := by
  induction hR with
  | nil => simp
  | cons hw _ ih =>
    rw [forall_mem_cons] at hP ⊢
    rw [hstep _ _ hw hP.1, ih hP.2, forall_mem_cons]

theorem windowsOk_of_step_iff {op : Option TokenOp} {m' : BlockManager} (hstep : Step rid op m m')
    (hok : ∀ w ∈ m.windows, WindowOk rid w) :
    (∀ w ∈ m'.windows, WindowOk rid w) ↔ (op = some .removeToken → ∀ w ∈ m.windows, WindowSafe rid w) := by
  cases hstep with
  | @token op m m' hrun =>
    have hR := forall₂_of_forWindows hrun
    cases op with
    | addToken =>
      have hiff := forall_iff_of_forall₂ (S := fun _ => True) hR (fun w w' hw hwok => by
        obtain ⟨c, s⟩ := w
        obtain ⟨rfl, lookupTree, hadd⟩ := hw
        exact iff_of_true (windowOk_of_addToken hwok hadd) trivial) hok
      simpa using hiff
    | removeToken =>
      have hiff := forall_iff_of_forall₂ hR (fun w w' hw hwok => by
        obtain ⟨c, s⟩ := w
        obtain ⟨rfl, lookupTree, hremove⟩ := hw
        exact windowOk_of_removeToken_iff hwok hremove) hok
      simpa using hiff
  | other hsame =>
    have hiff := forall_iff_of_forall₂ hsame (fun w w' hw hwok => by
      obtain ⟨hc, hsequence, hallocated⟩ := hw
      obtain ⟨n, ids, blocks, hholds, hcovers⟩ := hwok
      exact iff_of_true ⟨n, ids, blocks, ⟨hsequence ▸ hholds.sequence, hallocated ▸ hholds.allocated⟩, hc ▸ hcovers⟩ trivial) hok
    simpa using hiff

/-- The lists of a sequence cover its tokens in every state of a run, just if they do at its start and every removal is
safe where it starts. -/
theorem rewind_covers_iff (requestId : ℕ) (m : BlockManager) (steps : List (Option TokenOp × BlockManager))
    (hruns : Runs requestId m steps) :
    ((∀ w ∈ m.windows, WindowOk requestId w) ∧ ∀ step ∈ steps, ∀ w ∈ step.2.windows, WindowOk requestId w) ↔
      (∀ w ∈ m.windows, WindowOk requestId w) ∧ RemovalsSafe requestId m steps := by
  refine and_congr_right fun hok => ?_
  induction steps generalizing m with
  | nil => simp [RemovalsSafe]
  | cons step steps ih =>
    obtain ⟨op, m'⟩ := step
    obtain ⟨hstep, hruns⟩ := hruns
    rw [forall_mem_cons, RemovalsSafe, ← windowsOk_of_step_iff hstep hok]
    exact and_congr_right fun hok' => ih m' hruns hok'

def trace (requestId : ℕ) : List TokenOp → BlockManager → List (Option TokenOp × BlockManager)
  | [], _ => []
  | op :: ops, m =>
    match op.run requestId m with
    | .error _ => []
    | .ok m' => (some op, m') :: trace requestId ops m'

theorem runs_trace (ops : List TokenOp) (m : BlockManager) : Runs rid m (trace rid ops m) := by
  induction ops generalizing m with
  | nil => trivial
  | cons op ops ih =>
    rw [trace]
    cases hrun : op.run rid m with
    | error e => trivial
    | ok m' => exact ⟨.token hrun, ih m'⟩

end Runs

private def slidingWindow : WindowConfig where
  windowSize := 4
  tokensPerBlock := 2
  tokensPerBlock_pos := Nat.two_pos
  isSWA := true
  isRecurrentState := false
  hasLinearAttentionMetadata := false
  enableBlockReuse := false
  enablePartialReuse := false
  copyOnPartialReuse := false
  cacheType := .self
  numPrimaryBlocks := 4
  numSecondaryBlocks := 0
  secondaryOffloadMinPriority := kDefaultSecondaryOffloadMinPriority
  maxTokenNum := 8
  kvCacheConnector := none

private def prompted : BlockManager :=
  match admitBatch slidingWindow [⟨LlmRequest.plain 1 [5, 6, 7, 8] 0, 4, 1, Nat.one_pos⟩]
      (initial slidingWindow) with
  | .ok _ s => ⟨s.lookupTree, [(slidingWindow, s)]⟩
  | .error _ s => ⟨s.lookupTree, []⟩

theorem rewind_covers_prompt :
    Runs 1 prompted (trace 1 [.addToken, .addToken, .removeToken] prompted) ∧
      (((∀ w ∈ prompted.windows, WindowOk 1 w) ∧ ∀ step ∈ trace 1 [.addToken, .addToken, .removeToken] prompted,
          ∀ w ∈ step.2.windows, WindowOk 1 w) ↔
        (∀ w ∈ prompted.windows, WindowOk 1 w) ∧
          RemovalsSafe 1 prompted (trace 1 [.addToken, .addToken, .removeToken] prompted)) :=
  ⟨runs_trace _ _, rewind_covers_iff 1 prompted _ (runs_trace _ _)⟩

/-- Two tokens move the window past block 0. Removing them moves it back over positions 1 to 3, but the sequence has
given block 0 away. -/
theorem rewind_loses_block :
    ∃ m steps, Runs 1 m steps ∧ (∀ w ∈ m.windows, WindowOk 1 w) ∧ ¬ ∀ step ∈ steps, ∀ w ∈ step.2.windows, WindowOk 1 w := by
  have hstart : ∀ w ∈ prompted.windows, (w.1.windowSize, w.1.tokensPerBlock) = (4, 2) ∧
      entries 1 w.2 = (some (4, 1, [.block 0, .block 1]), some [.block 0, .block 1]) := by
    decide +kernel
  have hend : ¬ ∀ w ∈ (trace 1 [.addToken, .addToken, .removeToken, .removeToken] prompted).flatMap (·.2.windows),
      ¬ ((w.1.windowSize, w.1.tokensPerBlock) = (4, 2) ∧
        entries 1 w.2 = (some (4, 1, [.block 0, .block 1]), some [.placeholder 0, .block 1])) := by
    decide +kernel
  refine ⟨prompted, _, runs_trace [.addToken, .addToken, .removeToken, .removeToken] prompted, fun w hw => ?_, fun hall => ?_⟩
  · obtain ⟨hconfig, hentries⟩ := hstart w hw
    obtain ⟨hwindow, htokens⟩ := Prod.mk.inj hconfig
    rw [windowOk_iff_of_holds (holds_of_entries hentries)]
    refine ⟨by rw [htokens]; rfl, by rw [htokens]; rfl, fun p hp hin => ?_⟩
    rw [htokens]
    have hcases : p = 1 ∨ p = 2 ∨ p = 3 := by omega
    rcases hcases with rfl | rfl | rfl
    · exact ⟨0, rfl, rfl⟩
    · exact ⟨1, rfl, rfl⟩
    · exact ⟨1, rfl, rfl⟩
  · refine hend fun w hw ⟨hconfig, hentries⟩ => ?_
    obtain ⟨step, hstep, hw⟩ := mem_flatMap.1 hw
    obtain ⟨hwindow, htokens⟩ := Prod.mk.inj hconfig
    have hcovers := (windowOk_iff_of_holds (holds_of_entries hentries)).1 (hall step hstep w hw)
    obtain ⟨block, -, hblock⟩ := hcovers.backed 1 (by decide) (by rw [hwindow])
    rw [htokens] at hblock
    cases hblock

end TrtLlm.BatchManager
