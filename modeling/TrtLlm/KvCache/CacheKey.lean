import Mathlib
import TrtLlm.Lib.Bytes

/-!
# Reuse keys

The key derivation of `_cache_key.py`: a reuse scope is hashed to a root key, and each block of tokens on top of the
previous key. Prefix reuse compares keys only, so what equal keys say about scope and tokens is all that keeps requests
apart. SHA-256 is a parameter, assumed collision free on the inputs the two chains hash, which a hash with 32-byte
digests can be.
-/

namespace TrtLlm.KvCache

open List

abbrev Digest := List.Vector UInt8 32

/-- A token id, or the digest that stands for a multimodal item. -/
inductive TokenIdExt where
  | id (value : UInt64)
  | digest (bytes : Digest)
deriving DecidableEq

abbrev TokenBlock := List TokenIdExt

structure ReuseScope where
  loraId : Option UInt64 := none
  salt : Option UInt64 := none
deriving DecidableEq

def UInt64.leBytes (value : UInt64) : Bytes := TrtLlm.leBytes 8 value.toNat

/-- `array("Q", data).tobytes()` on a little-endian host; `none` is the `TypeError` a digest raises. -/
def packArray : TokenBlock → Option Bytes
  | [] => some []
  | .id value :: rest => (packArray rest).map (UInt64.leBytes value ++ ·)
  | .digest _ :: _ => none

/-- One round of the loop that packs a block item by item. -/
def TokenIdExt.bytes : TokenIdExt → Bytes
  | .id value => UInt64.leBytes value
  | .digest bytes => bytes.toList

variable (tokens : TokenBlock)

/-- The bytes `Hasher.update` feeds to the hash for a token block. -/
def tokenBlockBytes : Bytes :=
  match packArray tokens with
  | some packed => packed
  | none => tokens.flatMap TokenIdExt.bytes

/-- `reuse_scope_to_bytes` of any number of fields: a mask of the fields present, then their values. -/
def reuseScopeToBytes (values : List (Option UInt64)) : Bytes :=
  let mask := (values.mapIdx fun i value => value.isSome.toNat <<< i).sum
  leBytes ((values.length + 7) / 8) mask ++ values.flatMap fun value => value.elim [] UInt64.leBytes

def ReuseScope.toBytes (scope : ReuseScope) : Bytes := reuseScopeToBytes [scope.loraId, scope.salt]

section Keys

variable (sha256 : Bytes → Digest)

def rootKey (scope : ReuseScope) : Digest := sha256 scope.toBytes

def makeKey (prevKey : Digest) (tokens : TokenBlock) : Digest := sha256 (prevKey.toList ++ tokenBlockBytes tokens)

/-- The loop of `sequence_to_blockchain_keys`. -/
def blockchainLoop (tokensPerBlock : Nat) (digest : Digest) (tokens : List TokenIdExt) :
    List (TokenBlock × Digest) :=
  let tokenBlock := tokens.take tokensPerBlock
  if tokenBlock = [] then []
  else
    let digest := makeKey sha256 digest tokenBlock
    (tokenBlock, digest) :: blockchainLoop tokensPerBlock digest (tokens.drop tokensPerBlock)
termination_by tokens.length
decreasing_by
  rename_i hblock
  rw [take_eq_nil_iff, not_or] at hblock
  have := length_pos_of_ne_nil hblock.2
  rw [length_drop]
  omega

def sequenceToBlockchainKeys (tokensPerBlock : Nat) (scope : ReuseScope) (tokens : List TokenIdExt) :
    List (TokenBlock × Digest) :=
  ([], rootKey sha256 scope) :: blockchainLoop sha256 tokensPerBlock (rootKey sha256 scope) tokens

end Keys

/-! ### The serialisation in 64-bit words -/

theorem tokenBlockBytes_eq_flatMap : tokenBlockBytes tokens = tokens.flatMap TokenIdExt.bytes := by
  have hpack : ∀ packed, packArray tokens = some packed → packed = tokens.flatMap TokenIdExt.bytes := by
    induction tokens with
    | nil => simp [packArray]
    | cons token rest ih =>
      intro packed hpacked
      cases token with
      | id value =>
        rw [packArray, Option.map_eq_some_iff] at hpacked
        obtain ⟨tail, htail, rfl⟩ := hpacked
        rw [ih tail htail, flatMap_cons, TokenIdExt.bytes]
      | digest bytes => cases hpacked
  rw [tokenBlockBytes]
  split
  · rename_i packed hpacked
    exact hpack packed hpacked
  · rfl

/-- The 64-bit words a token contributes to the hashed bytes: a digest counts as four ids. -/
def TokenIdExt.words : TokenIdExt → List UInt64
  | .id value => [value]
  | .digest bytes => (List.range 4).map fun k => UInt64.ofNat (ofLeBytes ((bytes.toList.drop (8 * k)).take 8))

def tokenBlockWords : List UInt64 := tokens.flatMap TokenIdExt.words

@[simp] theorem UInt64.length_leBytes (value : UInt64) : (UInt64.leBytes value).length = 8 := TrtLlm.length_leBytes 8 _

theorem UInt64.leBytes_inj {m n : UInt64} (heq : UInt64.leBytes m = UInt64.leBytes n) : m = n :=
  UInt64.toNat_inj.1 (TrtLlm.leBytes_inj m.toNat_lt n.toNat_lt heq)

theorem UInt64.leBytes_ofNat {bytes : Bytes} (hlen : bytes.length = 8) :
    UInt64.leBytes (UInt64.ofNat (ofLeBytes bytes)) = bytes := by
  have hlt : ofLeBytes bytes < 2 ^ 64 := by
    have hlt := ofLeBytes_lt bytes
    rw [hlen] at hlt
    omega
  rw [UInt64.leBytes, UInt64.toNat_ofNat', Nat.mod_eq_of_lt hlt]
  conv_rhs => rw [← leBytes_ofLeBytes bytes, hlen]

theorem TokenIdExt.bytes_eq_words (token : TokenIdExt) : token.bytes = token.words.flatMap UInt64.leBytes := by
  cases token with
  | id value => simp [bytes, words]
  | digest bytes =>
    have hlen : bytes.toList.length = 32 := bytes.toList_length
    rw [TokenIdExt.bytes, words, flatMap_map, ← take_of_length_le hlen.le, ← flatMap_pieces 8 4]
    refine flatMap_congr fun k hk => ?_
    rw [flatMap_pieces, take_of_length_le hlen.le, UInt64.leBytes_ofNat]
    rw [length_take, length_drop]
    have := mem_range.1 hk
    omega

theorem tokenBlockBytes_eq_words : tokenBlockBytes tokens = (tokenBlockWords tokens).flatMap UInt64.leBytes := by
  rw [tokenBlockBytes_eq_flatMap, tokenBlockWords, flatMap_assoc]
  congr 1
  funext token
  exact token.bytes_eq_words

theorem tokenBlockBytes_inj {left right : TokenBlock} :
    tokenBlockBytes left = tokenBlockBytes right ↔ tokenBlockWords left = tokenBlockWords right := by
  rw [tokenBlockBytes_eq_words, tokenBlockBytes_eq_words]
  constructor
  · exact flatMap_inj_of_width (by decide) UInt64.length_leBytes fun _ _ => UInt64.leBytes_inj
  · intro heq
    rw [heq]

/-! ### The root key -/

def fieldBytes (value : Option UInt64) : Bytes := value.elim [] UInt64.leBytes

theorem length_fieldBytes (value : Option UInt64) : (fieldBytes value).length = 8 * value.isSome.toNat := by
  cases value <;> simp [fieldBytes]

theorem fieldBytes_inj {left right : Option UInt64} (hsome : left.isSome = right.isSome)
    (heq : fieldBytes left = fieldBytes right) : left = right := by
  cases left with
  | none =>
    cases right with
    | none => rfl
    | some _ => cases hsome
  | some value =>
    cases right with
    | none => cases hsome
    | some value' => rw [UInt64.leBytes_inj heq]

theorem ReuseScope.toBytes_eq (scope : ReuseScope) :
    scope.toBytes = UInt8.ofNat (scope.loraId.isSome.toNat + 2 * scope.salt.isSome.toNat) ::
      (fieldBytes scope.loraId ++ fieldBytes scope.salt) := by
  obtain ⟨loraId, salt⟩ := scope
  cases loraId <;> cases salt <;> simp [toBytes, reuseScopeToBytes, fieldBytes, TrtLlm.leBytes]

theorem ReuseScope.toBytes_ne_append (scope : ReuseScope) {key : Digest} {bytes : List UInt8} :
    scope.toBytes ≠ key.toList ++ bytes := by
  intro heq
  have hlen := congrArg length heq
  have hbit := Bool.toNat_le scope.loraId.isSome
  have hbit' := Bool.toNat_le scope.salt.isSome
  rw [toBytes_eq, length_cons, length_append, length_fieldBytes, length_fieldBytes, length_append,
    List.Vector.toList_length] at hlen
  omega

/-- The mask byte says which fields are present, so the values are read off at known places. -/
theorem ReuseScope.toBytes_inj {left right : ReuseScope} (heq : left.toBytes = right.toBytes) : left = right := by
  rw [toBytes_eq, toBytes_eq, cons.injEq] at heq
  have hmask : ∀ a b c d : Bool,
      UInt8.ofNat (a.toNat + 2 * b.toNat) = UInt8.ofNat (c.toNat + 2 * d.toNat) → a = c ∧ b = d := by decide
  obtain ⟨hlora, hsalt⟩ := hmask _ _ _ _ heq.1
  have hlen : (fieldBytes left.loraId).length = (fieldBytes right.loraId).length := by
    rw [length_fieldBytes, length_fieldBytes, hlora]
  obtain ⟨hfst, hsnd⟩ := append_inj heq.2 hlen
  rw [ReuseScope.mk.injEq]
  exact ⟨fieldBytes_inj hlora hfst, fieldBytes_inj hsalt hsnd⟩

/-! ### The chain of keys -/

def tokenBlocks (tokensPerBlock : Nat) (tokens : List TokenIdExt) : List TokenBlock :=
  if tokens.take tokensPerBlock = [] then []
  else tokens.take tokensPerBlock :: tokenBlocks tokensPerBlock (tokens.drop tokensPerBlock)
termination_by tokens.length
decreasing_by
  rename_i hblock
  rw [take_eq_nil_iff, not_or] at hblock
  have := length_pos_of_ne_nil hblock.2
  rw [length_drop]
  omega

theorem tokenBlocks_take (tpb i : Nat) (tokens : List TokenIdExt) :
    (tokenBlocks tpb tokens).take i = tokenBlocks tpb (tokens.take (i * tpb)) := by
  induction i generalizing tokens with
  | zero => rw [take_zero, Nat.zero_mul, take_zero, tokenBlocks, if_pos take_nil]
  | succ i ih =>
    have hmin : min tpb ((i + 1) * tpb) = tpb := by
      rw [Nat.succ_mul]
      omega
    have hdrop : (tokens.take ((i + 1) * tpb)).drop tpb = (tokens.drop tpb).take (i * tpb) := by
      rw [drop_take, Nat.succ_mul, Nat.add_sub_cancel]
    rw [tokenBlocks.eq_1 _ tokens, tokenBlocks.eq_1 _ (tokens.take _), take_take, hmin, hdrop]
    split
    · rfl
    · rw [take_succ_cons, ih]

theorem flatten_tokenBlocks_take (tpb i : Nat) (tokens : List TokenIdExt) :
    ((tokenBlocks tpb tokens).take i).flatten = tokens.take (i * tpb) := by
  induction i generalizing tokens with
  | zero => simp
  | succ i ih =>
    rw [tokenBlocks]
    split
    · rename_i hblock
      rcases take_eq_nil_iff.1 hblock with rfl | rfl <;> simp
    · rw [take_succ_cons, flatten_cons, ih, Nat.succ_mul, add_comm, take_add]

variable {tpb : Nat}

theorem tokens_take_eq_iff {i : Nat} {left right : List TokenIdExt} :
    left.take (i * tpb) = right.take (i * tpb) ↔ (tokenBlocks tpb left).take i = (tokenBlocks tpb right).take i := by
  constructor
  · intro heq
    rw [tokenBlocks_take, tokenBlocks_take, heq]
  · intro heq
    rw [← flatten_tokenBlocks_take, ← flatten_tokenBlocks_take, heq]

section Chains

variable (sha256 : Bytes → Digest)

/-- The key of the block that ends a path of blocks below the root of a scope. -/
def chainKey (scope : ReuseScope) (blocks : List TokenBlock) : Digest := blocks.foldl (makeKey sha256) (rootKey sha256 scope)

theorem blockchainLoop_getElem? (tpb : Nat) (digest : Digest) (tokens : List TokenIdExt) (i : Nat) :
    (blockchainLoop sha256 tpb digest tokens)[i]? =
      (tokenBlocks tpb tokens)[i]?.map fun block =>
        (block, ((tokenBlocks tpb tokens).take (i + 1)).foldl (makeKey sha256) digest) := by
  induction i generalizing digest tokens with
  | zero =>
    rw [blockchainLoop, tokenBlocks]
    split <;> simp
  | succ i ih =>
    rw [blockchainLoop, tokenBlocks]
    split
    · simp
    · rw [getElem?_cons_succ, getElem?_cons_succ, ih, take_succ_cons, foldl_cons]

variable {scope : ReuseScope} {i : Nat} {key : Digest}

theorem key_iff {tokens : List TokenIdExt} :
    (∃ block, (sequenceToBlockchainKeys sha256 tpb scope tokens)[i]? = some (block, key)) ↔
      i ≤ (tokenBlocks tpb tokens).length ∧ chainKey sha256 scope ((tokenBlocks tpb tokens).take i) = key := by
  rw [sequenceToBlockchainKeys]
  cases i with
  | zero => simp [chainKey]
  | succ i =>
    rw [getElem?_cons_succ, blockchainLoop_getElem?]
    constructor
    · rintro ⟨block, hblock⟩
      obtain ⟨b, hb, heq⟩ := Option.map_eq_some_iff.1 hblock
      cases heq
      exact ⟨(List.getElem?_eq_some_iff.1 hb).1, rfl⟩
    · rintro ⟨hlt, rfl⟩
      refine ⟨(tokenBlocks tpb tokens)[i], ?_⟩
      rw [getElem?_eq_getElem hlt]
      rfl

variable (scope)

def hashedInputs (blocks : List TokenBlock) : Set Bytes :=
  {input | input = scope.toBytes ∨ ∃ i block, blocks[i]? = some block ∧
    input = (chainKey sha256 scope (blocks.take i)).toList ++ tokenBlockBytes block}

variable {sha256}

theorem hashedInputs_mem_root (blocks : List TokenBlock) : scope.toBytes ∈ hashedInputs sha256 scope blocks := .inl rfl

variable {blocks : List TokenBlock}

theorem hashedInputs_mem_block (hi : i < blocks.length) :
    (chainKey sha256 scope (blocks.take i)).toList ++ tokenBlockBytes blocks[i] ∈ hashedInputs sha256 scope blocks :=
  .inr ⟨i, _, getElem?_eq_getElem hi, rfl⟩

theorem chainKey_take_succ (hi : i < blocks.length) :
    chainKey sha256 scope (blocks.take (i + 1)) =
      sha256 ((chainKey sha256 scope (blocks.take i)).toList ++ tokenBlockBytes blocks[i]) := by
  rw [take_succ_eq_append_getElem hi, chainKey, foldl_append]
  rfl

theorem append_bytes_inj {key' : Digest} {bytes bytes' : Bytes} :
    key.toList ++ bytes = key'.toList ++ bytes' ↔ key = key' ∧ bytes = bytes' := by
  constructor
  · intro heq
    obtain ⟨hkey, hbytes⟩ := append_inj heq (key.toList_length.trans key'.toList_length.symm)
    exact ⟨List.Vector.toList_injective hkey, hbytes⟩
  · intro heq
    rw [heq.1, heq.2]

variable {scope}

/-- With no collisions on the inputs of two chains, two of their keys are equal exactly when they stand at the same
depth, below the same scope, and all blocks up to them spell the same words. -/
theorem chainKey_eq_iff {scope' : ReuseScope} {blocks' : List TokenBlock} {j : Nat}
    (hinj : Set.InjOn sha256 (hashedInputs sha256 scope blocks ∪ hashedInputs sha256 scope' blocks'))
    (hi : i ≤ blocks.length) (hj : j ≤ blocks'.length) :
    chainKey sha256 scope (blocks.take i) = chainKey sha256 scope' (blocks'.take j) ↔
      i = j ∧ scope = scope' ∧ (blocks.take i).map tokenBlockWords = (blocks'.take j).map tokenBlockWords := by
  induction i generalizing j with
  | zero =>
    cases j with
    | zero =>
      simp only [take_zero, true_and, and_true]
      constructor
      · intro heq
        exact ReuseScope.toBytes_inj (hinj (.inl (hashedInputs_mem_root _ _)) (.inr (hashedInputs_mem_root _ _)) heq)
      · intro heq
        rw [heq]
    | succ j =>
      refine iff_of_false (fun heq => ?_) fun h => absurd h.1 (by omega)
      rw [chainKey_take_succ scope' hj] at heq
      exact scope.toBytes_ne_append (hinj (.inl (hashedInputs_mem_root _ _)) (.inr (hashedInputs_mem_block scope' hj)) heq)
  | succ i ih =>
    cases j with
    | zero =>
      refine iff_of_false (fun heq => ?_) fun h => absurd h.1 (by omega)
      rw [chainKey_take_succ scope hi] at heq
      exact scope'.toBytes_ne_append (hinj (.inl (hashedInputs_mem_block scope hi)) (.inr (hashedInputs_mem_root _ _)) heq).symm
    | succ j =>
      rw [chainKey_take_succ scope hi, chainKey_take_succ scope' hj,
        hinj.eq_iff (.inl (hashedInputs_mem_block scope hi)) (.inr (hashedInputs_mem_block scope' hj)),
        append_bytes_inj, ih (by omega) (by omega), tokenBlockBytes_inj, take_succ_eq_append_getElem hi,
        take_succ_eq_append_getElem hj, map_append, map_append, add_right_cancel_iff]
      simp only [map_cons, map_nil, ← concat_eq_append, concat_inj, and_assoc]

end Chains

/-! ### What equal keys say -/

variable (sha256 : Bytes → Digest)

/-- Whenever the chains of two requests share a key, the requests have the same scope and the same tokens up to the end
of the block with that key. -/
def KeysIdentify (tokensPerBlock : Nat) (scope : ReuseScope) (tokens : List TokenIdExt) (scope' : ReuseScope)
    (tokens' : List TokenIdExt) : Prop :=
  ∀ i j block block' key,
    (sequenceToBlockchainKeys sha256 tokensPerBlock scope tokens)[i]? = some (block, key) →
    (sequenceToBlockchainKeys sha256 tokensPerBlock scope' tokens')[j]? = some (block', key) →
    i = j ∧ scope = scope' ∧ tokens.take (i * tokensPerBlock) = tokens'.take (j * tokensPerBlock)

/-- The first block in which two token sequences differ spells the same words in both. -/
def Confusable (tokensPerBlock : Nat) (tokens tokens' : List TokenIdExt) : Prop :=
  ∃ n block block', (tokenBlocks tokensPerBlock tokens)[n]? = some block ∧
    (tokenBlocks tokensPerBlock tokens')[n]? = some block' ∧
    (tokenBlocks tokensPerBlock tokens).take n = (tokenBlocks tokensPerBlock tokens').take n ∧
    block ≠ block' ∧ tokenBlockWords block = tokenBlockWords block'

variable {tokens tokens' : List TokenIdExt}

/-- Confusable sequences share a key in the same scope, whatever the hash. -/
theorem not_keysIdentify_of_confusable (scope : ReuseScope) (hconf : Confusable tpb tokens tokens') :
    ¬ KeysIdentify sha256 tpb scope tokens scope tokens' := by
  obtain ⟨n, block, block', hblock, hblock', htake, hne, hwords⟩ := hconf
  obtain ⟨hlt, hget⟩ := List.getElem?_eq_some_iff.1 hblock
  obtain ⟨hlt', hget'⟩ := List.getElem?_eq_some_iff.1 hblock'
  have hkey : chainKey sha256 scope ((tokenBlocks tpb tokens).take (n + 1)) =
      chainKey sha256 scope ((tokenBlocks tpb tokens').take (n + 1)) := by
    rw [chainKey_take_succ scope hlt, chainKey_take_succ scope hlt', htake, hget, hget', tokenBlockBytes_inj.2 hwords]
  intro hident
  obtain ⟨b, hb⟩ := (key_iff sha256).2 ⟨hlt, hkey⟩
  obtain ⟨b', hb'⟩ := (key_iff sha256).2 ⟨hlt', rfl⟩
  have heq := tokens_take_eq_iff.1 (hident (n + 1) (n + 1) b b' _ hb hb').2.2
  rw [take_succ_eq_append_getElem hlt, take_succ_eq_append_getElem hlt', hget, hget', htake] at heq
  exact hne (head_eq_of_cons_eq (append_cancel_left heq))

/-- Keys identify scope and content exactly as the serialisation does: two requests in one scope must not first differ
in a block whose untagged ids and digests spell the same 64-bit words. -/
theorem keysIdentify_iff (sha256 : Bytes → Digest) (tokensPerBlock : Nat) (scope scope' : ReuseScope)
    (tokens tokens' : List TokenIdExt)
    (hinj : Set.InjOn sha256 (hashedInputs sha256 scope (tokenBlocks tokensPerBlock tokens) ∪ hashedInputs sha256 scope'
      (tokenBlocks tokensPerBlock tokens'))) :
    KeysIdentify sha256 tokensPerBlock scope tokens scope' tokens' ↔
      (scope = scope' → ¬ Confusable tokensPerBlock tokens tokens') := by
  constructor
  · intro hident hscope hconf
    rw [← hscope] at hident
    exact not_keysIdentify_of_confusable sha256 scope hconf hident
  · intro hclear i j block block' key hkey hkey'
    obtain ⟨hi, heq⟩ := (key_iff sha256).1 ⟨block, hkey⟩
    obtain ⟨hj, heq'⟩ := (key_iff sha256).1 ⟨block', hkey'⟩
    obtain ⟨rfl, hscope, hwords⟩ := (chainKey_eq_iff hinj hi hj).1 (heq.trans heq'.symm)
    refine ⟨rfl, hscope, tokens_take_eq_iff.2 ?_⟩
    by_contra hne
    obtain ⟨n, b, b', hb, hb', htake, hdiff, hsame⟩ := exists_first_ne tokenBlockWords hwords hne
    have hn : n < i := lt_of_lt_of_le (List.getElem?_eq_some_iff.1 hb).1 (List.length_take_le _ _)
    rw [getElem?_take_of_lt hn] at hb hb'
    rw [take_take, take_take, min_eq_left hn.le] at htake
    exact hclear hscope ⟨n, b, b', hb, hb', htake, hdiff, hsame⟩

theorem hashedInputs_singleton (scope : ReuseScope) (block : TokenBlock) :
    hashedInputs sha256 scope [block] = {scope.toBytes, (rootKey sha256 scope).toList ++ tokenBlockBytes block} := by
  ext input
  constructor
  · rintro (hroot | ⟨i, b, hb, rfl⟩)
    · exact .inl hroot
    obtain ⟨hi, hget⟩ := List.getElem?_eq_some_iff.1 hb
    obtain rfl : i = 0 := by
      rw [length_singleton] at hi
      omega
    subst hget
    exact .inr rfl
  · rintro (hroot | hblock)
    · exact .inl hroot
    · exact .inr ⟨0, block, rfl, hblock⟩

theorem keysIdentify_iff_salted :
    KeysIdentify (fun bytes => List.Vector.ofFn fun k => bytes.reverse.getD k 0) 1 {} [.id 5] { salt := some 1 } [.id 5] := by
  refine (keysIdentify_iff _ _ _ _ _ _ ?_).2 fun hscope => absurd hscope (by decide)
  have hblocks : tokenBlocks 1 [.id 5] = [[.id 5]] := by
    rw [tokenBlocks, tokenBlocks]
    rfl
  rw [hblocks, hashedInputs_singleton, hashedInputs_singleton]
  rintro x ((rfl | rfl) | (rfl | rfl)) y ((rfl | rfl) | (rfl | rfl)) <;> decide

/-- As soon as two tokens fit into a block, an id followed by a digest can be confused with a digest followed by an
id. -/
theorem confusable_of_two_le (htwo : 2 ≤ tpb) :
    Confusable tpb [.id 0, .digest (List.Vector.replicate 32 0)] [.digest (List.Vector.replicate 32 0), .id 0] := by
  have hblocks : ∀ a b : TokenIdExt, (tokenBlocks tpb [a, b])[0]? = some [a, b] := by
    intro a b
    have htake : [a, b].take tpb = [a, b] := take_of_length_le htwo
    rw [tokenBlocks, htake]
    rfl
  exact ⟨0, _, _, hblocks _ _, hblocks _ _, rfl, by decide, by decide⟩

/-- No hash tells these two requests apart. -/
theorem id_digest_collides_with_digest_id :
    ¬ ∃ sha256, KeysIdentify sha256 2 {} [.id 0, .digest (List.Vector.replicate 32 0)]
      {} [.digest (List.Vector.replicate 32 0), .id 0] := by
  intro ⟨sha256, hident⟩
  exact not_keysIdentify_of_confusable sha256 {} (confusable_of_two_le le_rfl) hident

/-! ### Requests that cannot be confused -/

theorem TokenIdExt.words_inj {left right : TokenIdExt} (heq : left.words = right.words) : left = right := by
  have hbytes : left.bytes = right.bytes := by rw [left.bytes_eq_words, right.bytes_eq_words, heq]
  cases left with
  | id value =>
    cases right with
    | id value' => rw [UInt64.leBytes_inj hbytes]
    | digest bytes' => exact absurd (congrArg length heq) (by simp [words])
  | digest bytes =>
    cases right with
    | id value' => exact absurd (congrArg length heq) (by simp [words])
    | digest bytes' => rw [List.Vector.toList_injective hbytes]

theorem mem_of_mem_tokenBlocks {block : TokenBlock} (h : block ∈ tokenBlocks tpb tokens) :
    block.length ≤ tpb ∧ block ≠ [] ∧ ∀ token ∈ block, token ∈ tokens := by
  induction tokens using tokenBlocks.induct tpb with
  | case1 tokens hempty =>
    rw [tokenBlocks, if_pos hempty] at h
    cases h
  | case2 tokens hfull ih =>
    rw [tokenBlocks, if_neg hfull] at h
    rcases mem_cons.1 h with rfl | hrest
    · exact ⟨length_take_le _ _, hfull, fun token => mem_of_mem_take⟩
    · obtain ⟨hlen, hne, hsub⟩ := ih hrest
      exact ⟨hlen, hne, fun token htoken => mem_of_mem_drop (hsub token htoken)⟩

theorem not_confusable_of_tokensPerBlock_le_one (hone : tpb ≤ 1) (tokens tokens' : List TokenIdExt) :
    ¬ Confusable tpb tokens tokens' := by
  rintro ⟨n, block, block', hblock, hblock', -, hne, hwords⟩
  have hsingle : ∀ {ts b}, (tokenBlocks tpb ts)[n]? = some b → ∃ token, b = [token] := by
    intro ts b hb
    obtain ⟨hlen, hb', -⟩ := mem_of_mem_tokenBlocks (mem_of_getElem? hb)
    exact length_eq_one_iff.1 (le_antisymm (hlen.trans hone) (length_pos_of_ne_nil hb'))
  obtain ⟨token, rfl⟩ := hsingle hblock
  obtain ⟨token', rfl⟩ := hsingle hblock'
  simp only [tokenBlockWords, flatMap_singleton] at hwords
  exact hne (by rw [TokenIdExt.words_inj hwords])

theorem not_confusable_of_ids
    (hids : ∀ token ∈ tokens ++ tokens', ∃ value, token = .id value) : ¬ Confusable tpb tokens tokens' := by
  rintro ⟨n, block, block', hblock, hblock', -, hne, hwords⟩
  have hvalues : ∀ b : TokenBlock, (∀ token ∈ b, ∃ value, token = .id value) → (tokenBlockWords b).map .id = b := by
    intro b hb
    induction b with
    | nil => rfl
    | cons token rest ih =>
      obtain ⟨value, rfl⟩ := hb token (.head _)
      exact congrArg _ (ih (forall_mem_cons.1 hb).2)
  have hsub := (mem_of_mem_tokenBlocks (mem_of_getElem? hblock)).2.2
  have hsub' := (mem_of_mem_tokenBlocks (mem_of_getElem? hblock')).2.2
  rw [← hvalues block fun t ht => hids t (mem_append_left _ (hsub t ht)),
    ← hvalues block' fun t ht => hids t (mem_append_right _ (hsub' t ht)), hwords] at hne
  exact hne rfl

end TrtLlm.KvCache
