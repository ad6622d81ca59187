import TrtLlm.KvCache.RadixTree.Match
import TrtLlm.KvCache.RadixTree.Runs

/-!
# What a match hands out

In every tree that its callers can build, the blocks on the path of a query store its own tokens in its own scope.
-/

namespace TrtLlm.KvCache.RadixTree

open List Option

variable {κ τ : Type}

/-- Every block hangs below the one before it, `parent` before the first; its matched tokens are the next of the query, and
all its tokens are if there is a further block. -/
def Follows (t : RadixTree κ τ) : ParentId → List τ → Matched → Prop
  | _, _, [] => True
  | parent, tokens, (id, n) :: rest =>
    ∃ b, t.block? id = some b ∧ b.prev = some parent ∧ tokens.take n <+: b.tokens ∧
      (rest ≠ [] → b.tokens.length = n) ∧ Follows t (.block id) (tokens.drop n) rest

variable [DecidableEq τ] {t : RadixTree κ τ} {q : ParentId} {tokens : List τ} {n : Nat} {id : BlockId}

theorem take_partialMatchThisNode (as bs : List τ) : as.take (partialMatchThisNode as bs) <+: bs := by
  fun_induction partialMatchThisNode as bs with
  | case1 as b bs ih => simpa using ih
  | case2 => simp
  | case3 => simp

theorem take_bestPartialMatch {children : List BlockId} (hbest : t.bestPartialMatch tokens children = (some id, n)) :
    tokens.take n <+: t.tokensOf id := by
  have hfold : ∀ b ∈ (t.bestPartialMatch tokens children).1,
      tokens.take (t.bestPartialMatch tokens children).2 <+: t.tokensOf b := by
    apply foldlRecOn (motive := fun best : Option BlockId × Nat => ∀ b ∈ best.1, tokens.take best.2 <+: t.tokensOf b)
    · rintro b ⟨⟩
    intro best hprefix child _
    rw [betterPartialMatch]
    split
    · rintro _ ⟨⟩
      exact take_partialMatchThisNode _ _
    · exact hprefix
  rw [hbest] at hfold
  exact hfold id rfl

variable [DecidableEq κ] {p : TreeParams κ τ} {enablePartialMatch : Bool} {key : κ}

omit [DecidableEq τ] in
theorem Core.key_eq {b : Block κ τ} (hcore : Core p t) (hkey : t.keyOf q = some key) (hb : t.block? id = some b)
    (hprev : b.prev = some q) : b.key = p.makeKey key b.tokens := by
  obtain ⟨key', hkey', hmake⟩ := hcore.key id b hb q hprev
  rw [hkey] at hkey'
  cases hkey'
  exact hmake

theorem follows_partialTail (hcore : Core p t) (m : Nat) :
    Follows t q tokens (t.partialTail enablePartialMatch (some (q, tokens.take m))) := by
  rw [partialTail]
  split
  · cases hnext : t.nextOf q with
    | none => exact trivial
    | some next =>
      rw [map_some, getD_some, findBestPartialMatchInNextNodes]
      split
      · exact trivial
      rcases hbest : t.bestPartialMatch (tokens.take m) next.values with ⟨_ | id, n⟩
      · exact trivial
      obtain ⟨hvalue, -, hle⟩ := bestPartialMatch_mem hbest
      obtain ⟨k, hk⟩ := Dict.mem_values_iff.1 hvalue
      obtain ⟨b, hb, hprev, -⟩ := hcore.child q next hnext k id hk
      have hprefix := take_bestPartialMatch hbest
      rw [tokensOf_eq hb, take_take, min_eq_left (hle.trans (length_take_le _ _))] at hprefix
      exact ⟨b, hb, hprev, hprefix, fun hne => absurd rfl hne, trivial⟩
  · exact trivial

/-- A key leads to a child with the tokens it was made from. -/
theorem follows_descend (hcore : Core p t) (hinj : ∀ key, (p.makeKey key).Injective) (fuel : Nat)
    (hkey : t.keyOf q = some key) : let d := t.descend q (blockKeysLoop p fuel key tokens)
    Follows t q tokens (d.1 ++ t.partialTail enablePartialMatch d.2) := by
  induction fuel generalizing q key tokens with
  | zero => exact trivial
  | succ fuel ih =>
    rw [blockKeysLoop]
    split
    · exact trivial
    rename_i token rest htake
    rw [descend]
    split
    · rename_i child hchild
      obtain ⟨next, hnext, hget⟩ := bind_eq_some_iff.1 hchild
      obtain ⟨b, hb, hprev, hk⟩ := hcore.child q next hnext _ child hget
      have htokens : b.tokens = tokens.take p.tokensPerBlock :=
        htake ▸ hinj key ((hcore.key_eq hkey hb hprev).symm.trans hk)
      have hchildKey : t.keyOf (.block child) = some (p.makeKey key (token :: rest)) := by rw [keyOf, hb, map_some, hk]
      have hrest := @ih _ (tokens.drop p.tokensPerBlock) _ hchildKey
      rw [← htake] at hrest ⊢
      refine ⟨b, hb, hprev, ?_, fun _ => congrArg length htokens, ?_⟩
      · rw [htokens, length_take, ← take_take, take_length]
      · rw [length_take, ← drop_eq_drop_min]
        exact hrest
    · dsimp only
      rw [← htake]
      exact follows_partialTail hcore _

omit [DecidableEq τ] in
/-- A whole block of the query that is in the tree is found. -/
theorem Follows.isPrefix_descend {path : Matched} (hcore : Core p t) {fuel : Nat} (hfuel : tokens.length ≤ fuel)
    (hkey : t.keyOf q = some key) (hpath : Follows t q tokens path) (hwhole : ∀ entry ∈ path, entry.2 = p.tokensPerBlock)
    (hlen : path.length * p.tokensPerBlock ≤ tokens.length) : path <+: (t.descend q (blockKeysLoop p fuel key tokens)).1 := by
  induction path generalizing q key tokens fuel with
  | nil => exact nil_prefix
  | cons entry rest ih =>
    obtain ⟨id, n⟩ := entry
    obtain ⟨b, hb, hprev, htake, -, hrest⟩ := hpath
    obtain rfl : n = p.tokensPerBlock := hwhole _ (.head _)
    have hpos := p.tokensPerBlock_pos
    rw [length_cons, Nat.succ_mul] at hlen
    have hlength : (tokens.take p.tokensPerBlock).length = p.tokensPerBlock := by
      rw [length_take]
      omega
    have htokens := htake.eq_of_length_le ((hcore.short id b hb).trans_eq hlength.symm)
    obtain ⟨next, hnext, hget⟩ := hcore.link id b hb q hprev
    have hchild : t.child? q (p.makeKey key (tokens.take p.tokensPerBlock)) = some id := by
      rw [htokens, ← hcore.key_eq hkey hb hprev, child?, hnext]
      exact hget
    obtain ⟨fuel, rfl⟩ := Nat.exists_eq_add_one_of_ne_zero (show fuel ≠ 0 by omega)
    rw [blockKeysLoop]
    split
    · rename_i hnil
      rw [hnil, length_nil] at hlength
      omega
    rename_i token others hcons
    rw [← hcons, descend, hchild]
    dsimp only
    rw [hlength, prefix_cons_inj]
    refine ih (by rw [length_drop]; omega) ?_ hrest (fun entry hentry => hwhole entry (.tail _ hentry)) ?_
    · rw [keyOf, hb, map_some, hcore.key_eq hkey hb hprev, htokens]
    · rw [length_drop]
      omega

/-- In every tree that its callers can build, if keys tell scopes and token blocks apart: the path of a query follows its
tokens from a root block of its scope, and it has every whole block of the query that is there; `match` reports the
greatest reusable number of tokens on it. -/
theorem runs_match_exact (p : TreeParams κ τ) (hroot : p.rootKey.Injective) (hinj : ∀ key, (p.makeKey key).Injective)
    (ops : List (Op κ τ)) (t : RadixTree κ τ) (hrun : Path (Step p) empty ops t) (scope : ReuseScope) (tokens : List τ)
    (enablePartialMatch : Bool) : let path := t.matchTokenPath p scope tokens enablePartialMatch
    (path ≠ [] → ∃ r root, t.root? r = some root ∧ root.reuseScope = scope ∧ Follows t (.root r) tokens path) ∧
    (∀ r root path', t.root? r = some root → root.attached = true → root.reuseScope = scope →
      Follows t (.root r) tokens path' → (∀ entry ∈ path', entry.2 = p.tokensPerBlock) →
      path'.length * p.tokensPerBlock ≤ tokens.length → path' <+: path) ∧
    ∃ result, t.reuseMatch p scope tokens enablePartialMatch = some result ∧
      Longest p.tokensPerBlock p.lifeCycles (fun lc id => t.pageCoverage id lc) (path.map Prod.fst)
        (numMatchedTokens p.tokensPerBlock path) result.numTokens := by
  have hcore := (Inv.of_path hrun).toCore
  refine ⟨fun hne => ?_, fun r root path' hr hattached hscope hpath hwhole hlen => ?_,
    t.reuseMatch_spec p scope tokens enablePartialMatch⟩
  · unfold matchTokenPath at hne ⊢
    split at hne
    · exact absurd rfl hne
    rename_i r hr
    obtain ⟨root, hr, hkey, -⟩ := hcore.root _ _ hr
    refine ⟨r, root, hr, hroot ((hcore.rootKey r root hr).symm.trans hkey), ?_⟩
    exact follows_descend hcore hinj _ (by rw [keyOf, hr, map_some, hkey])
  · have hkey := hcore.rootKey r root hr
    rw [hscope] at hkey
    rw [matchTokenPath, ← hkey, hcore.attached r root hr hattached]
    refine (hpath.isPrefix_descend hcore le_rfl ?_ hwhole hlen).trans (prefix_append _ _)
    rw [keyOf, hr, map_some, hkey]

theorem runs_match_exact_two_blocks :
    let p : TreeParams (ReuseScope × List (List Nat)) Nat :=
      ⟨fun scope => (scope, []), fun key tokens => (key.1, key.2 ++ [tokens]), 2, [], Nat.two_pos⟩
    ∃ t, t.matchTokenPath p ⟨none, none⟩ [1, 2, 3, 4] true = [(0, 2), (1, 1)] ∧
      ∃ r, Follows t (.root r) [1, 2, 3, 4] [(0, 2), (1, 1)] := by
  intro p
  have hrun : Path (Step p) empty [.addOrGetExisting ⟨none, none⟩, .newBlock [1, 2] (.root 0), .newBlock [3] (.block 0)] _ :=
    .cons rfl (.cons ⟨nofun, by decide, rfl⟩ (.cons ⟨fun id h => by cases h; rfl, by decide, rfl⟩ (.nil _)))
  have hexact := runs_match_exact p (fun _ _ h => congrArg Prod.fst h)
    (fun key _ _ h => by simpa [p] using h) _ _ hrun ⟨none, none⟩ [1, 2, 3, 4] true
  obtain ⟨r, root, -, -, hfollows⟩ := hexact.1 (by decide +kernel)
  exact ⟨_, by decide +kernel, r, hfollows⟩

end TrtLlm.KvCache.RadixTree
