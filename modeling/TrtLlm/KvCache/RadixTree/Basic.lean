import TrtLlm.KvCache.CacheKey
import TrtLlm.KvCache.LifeCycle

/-!
# The block radix tree

`_block_radix_tree.py` as a heap of root blocks and blocks with parent links and child maps. Objects stay in the heap: a
detached block has no parent link, and whether it is referenced elsewhere is not the tree's business. Reclaiming the
pages of a block reports them, since the storage layer drops those that nobody holds. Nothing in the tree depends on
events, which are left out.
-/

namespace TrtLlm.KvCache

abbrev BlockId := Nat

abbrev RootId := Nat

/-- A committed page as a block sees it: its identity and how many tokens of the block it covers. -/
structure PageRef where
  id : Nat
  numTokensInBlock : Nat
deriving DecidableEq, Repr

inductive ParentId where
  | root (id : RootId)
  | block (id : BlockId)
deriving DecidableEq, Repr

structure RootBlock (κ : Type) where
  key : κ
  reuseScope : ReuseScope
  /-- whether `_prev` still refers to the tree -/
  attached : Bool
  next : Dict κ BlockId

structure Block (κ τ : Type) where
  key : κ
  tokens : List τ
  ordinal : Nat
  prev : Option ParentId
  next : Dict κ BlockId
  storage : List (Option PageRef)

/-- What a tree is built with: the key derivation, the block size and the life cycles. -/
structure TreeParams (κ τ : Type) where
  rootKey : ReuseScope → κ
  makeKey : κ → List τ → κ
  tokensPerBlock : Nat
  lifeCycles : List LifeCycle
  tokensPerBlock_pos : 0 < tokensPerBlock := by decide

structure RadixTree (κ τ : Type) where
  next : Dict κ RootId
  roots : List (RootBlock κ)
  blocks : List (Block κ τ)

inductive TreeError where
  | dangling
  | assertionError
  | useless (block : BlockId)
deriving DecidableEq, Repr

/-- When a missing page takes the blocks below along: the block is a full-attention or a sink block, so it never becomes
stale. -/
def LifeCycle.pins (lifeCycle : LifeCycle) (ordinal : Nat) : Bool :=
  match lifeCycle with
  | .attn lc => lc.windowSize.isNone || ordinal < lc.numSinkBlocks
  | .ssm => false

namespace RadixTree

variable {κ τ : Type}

def empty : RadixTree κ τ := ⟨∅, [], []⟩

variable (t : RadixTree κ τ)

def root? (id : RootId) : Option (RootBlock κ) := t.roots[id]?

variable (id : BlockId)

def block? : Option (Block κ τ) := t.blocks[id]?

def nextOf : ParentId → Option (Dict κ BlockId)
  | .root id => (t.root? id).map RootBlock.next
  | .block id => (t.block? id).map Block.next

def keyOf : ParentId → Option κ
  | .root id => (t.root? id).map RootBlock.key
  | .block id => (t.block? id).map Block.key

/-- The ordinal of a child: a root block has ordinal -1. -/
def childOrdinal : ParentId → Option Nat
  | .root id => (t.root? id).map fun _ => 0
  | .block id => (t.block? id).map fun b => b.ordinal + 1

def tokensOf : List τ := ((t.block? id).map Block.tokens).getD []

def modifyRoot (id : RootId) (f : RootBlock κ → RootBlock κ) : RadixTree κ τ := { t with roots := t.roots.modify id f }

def modifyBlock (f : Block κ τ → Block κ τ) : RadixTree κ τ := { t with blocks := t.blocks.modify id f }

def setNext (parent : ParentId) (next : Dict κ BlockId) : RadixTree κ τ :=
  match parent with
  | .root id => t.modifyRoot id ({ · with next })
  | .block id => t.modifyBlock id ({ · with next })

/-! ### Pages -/

variable (lc : LifeCycleId)

def getPage : Option PageRef := ((t.block? id).bind (·.storage[lc]?)).join

def pageCoverage : Nat := (t.getPage id lc).elim 0 PageRef.numTokensInBlock

def setPage (page : Option PageRef) : RadixTree κ τ := t.modifyBlock id fun b => { b with storage := b.storage.set lc page }

def canReplacePage (numTokensInBlock : Nat) : Bool :=
  (t.getPage id lc).all fun existing => existing.numTokensInBlock < numTokensInBlock

/-- The tree's part of `Block.unlink_page`, with the page that was unlinked. -/
def unlinkPage (expected : Option Nat) : RadixTree κ τ × Option PageRef :=
  match t.getPage id lc with
  | none => (t, none)
  | some page => if expected.all (· = page.id) then (t.setPage id lc none, some page) else (t, none)

/-- One round of `_adopt_pages_from`. -/
def adoptPage (self other : BlockId) (t : RadixTree κ τ) (lc : LifeCycleId) : RadixTree κ τ :=
  match t.getPage other lc with
  | none => t
  | some page =>
    if t.canReplacePage self lc page.numTokensInBlock then (t.setPage other lc none).setPage self lc (some page) else t

def adoptPagesFrom (numLifeCycles : Nat) (self other : BlockId) : RadixTree κ τ :=
  (List.range numLifeCycles).foldl (adoptPage self other) t

def releasePages : RadixTree κ τ × List PageRef :=
  (t.modifyBlock id fun b => { b with storage := b.storage.map fun _ => none },
    (((t.block? id).map Block.storage).getD []).filterMap fun page => page)

/-! ### Structure -/

variable [DecidableEq κ]

def detachNext (parent : ParentId) (key : κ) : Option (RadixTree κ τ × Option BlockId) := do
  let next ← t.nextOf parent
  match next.get? key with
  | none => some (t, none)
  | some child =>
    let t := (t.setNext parent (next.erase key)).modifyBlock child ({ · with prev := none })
    match parent with
    | .block _ => some (t, some child)
    | .root id =>
      let root ← t.root? id
      if (next.erase key).entries = [] ∧ root.attached ∧ (t.next.get? root.key).isSome then
        -- an empty root block leaves the tree
        if t.next.get? root.key = some id then
          some ({ t with next := t.next.erase root.key }.modifyRoot id ({ · with attached := false }), some child)
        else none
      else some (t, some child)

/-- The loop of `remove_subtree`, at `block`; `none` is a failed assertion or missing fuel. -/
def removeSubtreeLoop (root : BlockId) : Nat → RadixTree κ τ → BlockId → List PageRef →
    Option (RadixTree κ τ × List PageRef)
  | 0, _, _, _ => none
  | fuel + 1, t, block, released => do
      let b ← t.block? block
      match b.next.values.head? with
      | some child => removeSubtreeLoop root fuel t child released
      | none =>
        let (t, pages) := t.releasePages block
        match b.prev with
        | none => if block = root then some (t, released ++ pages) else none
        | some parent =>
          let (t, detached) ← t.detachNext parent b.key
          if detached ≠ some block then none
          else if block = root then some (t, released ++ pages)
          else
            match parent with
            | .root _ => none
            | .block prev => removeSubtreeLoop root fuel t prev (released ++ pages)

/-- Enough rounds for every loop over a tree: each round either goes from a block to a younger one or detaches one. -/
def fuel : Nat := (t.blocks.length + 1) * (t.blocks.length + 1)

def removeSubtree (root : BlockId) : Option (RadixTree κ τ × List PageRef) := removeSubtreeLoop root t.fuel t root []

/-- The second loop of `clear_stale_blocks_after_page_unlink`: detaches leaf blocks without a page of the life cycle,
upwards from `curr`. -/
def pruneUpwards (lc : LifeCycleId) : Nat → RadixTree κ τ → ParentId → Option (RadixTree κ τ)
  | 0, _, _ => none
  | _ + 1, t, .root _ => some t
  | fuel + 1, t, .block curr => do
      let b ← t.block? curr
      if (t.getPage curr lc).isNone ∧ b.next.entries = [] then
        match b.prev with
        | none => some t
        | some prev =>
          let (t, detached) ← t.detachNext prev b.key
          if detached ≠ some curr then none else pruneUpwards lc fuel t prev
      else some t

/-- `clear_stale_blocks_after_page_unlink`, with the pages that `remove_subtree` reclaims. -/
def clearStaleBlocksAfterPageUnlink (start : BlockId) (lc : LifeCycleId) (lifeCycle : LifeCycle) :
    Option (RadixTree κ τ × List PageRef) := do
  let b ← t.block? start
  if (t.getPage start lc).isSome then none
  else
    let (t, released) ← (if lifeCycle.pins b.ordinal then t.removeSubtree start else some (t, []))
    let t ← pruneUpwards lc t.fuel t (.block start)
    pure (t, released)

/-! ### Insertion -/

variable (p : TreeParams κ τ)

def addOrGetExisting (scope : ReuseScope) : RadixTree κ τ × RootId :=
  match t.next.get? (p.rootKey scope) with
  | some root => (t, root)
  | none =>
    ({ t with
        next := t.next.insert (p.rootKey scope) t.roots.length
        roots := t.roots ++ [⟨p.rootKey scope, scope, true, ∅⟩] }, t.roots.length)

/-- The property `tokens_per_block`; a block takes its parent to be full. `none` is a dangling parent. -/
def tokensPerBlockOf : ParentId → Option Nat
  | .root id => (t.root? id).bind fun r => if r.attached then some p.tokensPerBlock else none
  | .block id => (t.block? id).bind fun b => b.prev.bind fun
      | .root id => (t.root? id).bind fun r => if r.attached then some p.tokensPerBlock else none
      | .block id => (t.block? id).map fun prev => prev.tokens.length

/-- `prev.prev.tokens_per_block`, the right side of the assertion in `Block.__init__`. -/
def tokensPerBlockOfPrev : ParentId → Option Nat
  | .root id => (t.root? id).bind fun r => if r.attached then some p.tokensPerBlock else none
  | .block id => (t.block? id).bind fun b => b.prev.bind (t.tokensPerBlockOf p)

def inTree (t : RadixTree κ τ) : Nat → ParentId → Bool
  | 0, _ => false
  | _ + 1, .root id => ((t.root? id).map RootBlock.attached).getD false
  | fuel + 1, .block id => (((t.block? id).bind Block.prev).map (inTree t fuel)).getD false

/-- The heap with a new block, entered in its parent's child map `next`. -/
def attach (prev : ParentId) (next : Dict κ BlockId) (block : Block κ τ) : RadixTree κ τ :=
  { t with blocks := t.blocks ++ [block] }.setNext prev (next.insert block.key t.blocks.length)

/-- Replaces the covered sibling with key `k`. -/
def replaceSibling (numLifeCycles : Nat) (parent : ParentId) (self : BlockId) (t : RadixTree κ τ) (k : κ) :
    Option (RadixTree κ τ) := do
  let (t, detached) ← t.detachNext parent k
  let other ← detached
  pure (t.adoptPagesFrom numLifeCycles self other)

variable [DecidableEq τ]

def newBlockSize : ParentId → Nat
  | .root _ => p.tokensPerBlock
  | .block id => (t.tokensOf id).length

def coveredKeys (next : Dict κ BlockId) (tokens : List τ) : List κ :=
  (next.entries.filter fun entry => (t.tokensOf entry.2).length < tokens.length ∧
    tokens.take (t.tokensOf entry.2).length = t.tokensOf entry.2).map Prod.fst

/-- `Block(tokens, prev)`: the new block, or the exception. -/
def newBlock (tokens : List τ) (prev : ParentId) : Except TreeError (RadixTree κ τ × BlockId) :=
  match t.tokensPerBlockOf p prev, t.tokensPerBlockOfPrev p prev with
  | some mine, some theirs =>
    if mine ≠ theirs then .error .assertionError
    else
      match t.keyOf prev, t.childOrdinal prev, t.nextOf prev with
      | some prevKey, some ordinal, some next =>
        let key := p.makeKey prevKey tokens
        match next.get? key with
        | some existing => .error (.useless existing)
        | none =>
          let covering := if tokens.length < t.newBlockSize p prev then
              next.values.find? fun b => (t.tokensOf b).take tokens.length = tokens
            else none
          match covering with
          | some b => .error (.useless b)
          | none =>
            if t.coveredKeys next tokens ≠ [] ∧ ¬ t.inTree (t.blocks.length + 1) prev then .error .dangling
            else
              let self := t.blocks.length
              let added := t.attach prev next
                ⟨key, tokens, ordinal, some prev, ∅, List.replicate p.lifeCycles.length none⟩
              match (t.coveredKeys next tokens).foldlM (replaceSibling p.lifeCycles.length prev self) added with
              | some t => .ok (t, self)
              | none => .error .assertionError
      | _, _, _ => .error .dangling
  | _, _ => .error .dangling

/-! ### Clearing -/

def clearRoot (root : RootId) : Nat → RadixTree κ τ → Option (RadixTree κ τ)
  | 0, _ => none
  | fuel + 1, t => do
      let next ← t.nextOf (.root root)
      match next.values.head? with
      | none => some t
      | some child =>
        let (t, _) ← t.removeSubtree child
        clearRoot root fuel t

/-- The outer loop; a root block without children is never removed, and the loop does not end. -/
def clearLoop : Nat → RadixTree κ τ → Option (RadixTree κ τ)
  | 0, _ => none
  | fuel + 1, t =>
    match t.next.values.head? with
    | none => some t
    | some root => do
        let t ← clearRoot root t.fuel t
        clearLoop fuel t

def clear : Option (RadixTree κ τ) := clearLoop (t.roots.length + 1) t

end RadixTree

end TrtLlm.KvCache
