import TrtLlm.Lib.Path
import TrtLlm.KvCache.RadixTree.Invariant

/-!
# Runs of the radix tree

Insertion keeps the invariant when its caller passes a full parent and at most one block of tokens, which is how the
key-value cache commits. Together with removal this gives the structure of every tree that its callers can build.
-/

namespace TrtLlm.KvCache.RadixTree

open Option

variable {κ τ : Type} [DecidableEq κ] {p : TreeParams κ τ} {t t' : RadixTree κ τ}

section Attach

variable {prev : ParentId} {next : Dict κ BlockId} {block : Block κ τ}

theorem getElem?_concat_eq {α : Type} (l : List α) (a : α) (i : Nat) :
    (l ++ [a])[i]? = if i = l.length then some a else l[i]? := by
  split
  · simp_all
  · rename_i hi
    rcases lt_or_gt_of_ne hi with hlt | hgt
    · rw [List.getElem?_append_left hlt]
    · rw [List.getElem?_eq_none hgt.le, List.getElem?_eq_none (by simp; omega)]

theorem block?_attach (t : RadixTree κ τ) (prev : ParentId) (next : Dict κ BlockId) (block : Block κ τ) (id : BlockId) :
    (t.attach prev next block).block? id = (if id = t.blocks.length then some block else t.block? id).map fun b =>
      { b with next := if prev = .block id then next.insert block.key t.blocks.length else b.next } := by
  rw [attach, block?_setNext]
  congr 1
  exact getElem?_concat_eq t.blocks block id

theorem root?_attach (t : RadixTree κ τ) (prev : ParentId) (next : Dict κ BlockId) (block : Block κ τ) (id : RootId) :
    (t.attach prev next block).root? id = (t.root? id).map fun r =>
      { r with next := if prev = .root id then next.insert block.key t.blocks.length else r.next } := by
  rw [attach, root?_setNext]
  rfl

theorem next_attach (t : RadixTree κ τ) (prev : ParentId) (next : Dict κ BlockId) (block : Block κ τ) :
    (t.attach prev next block).next = t.next := next_setNext _ _ _

omit [DecidableEq κ] in
theorem lt_length_of_block? {id : BlockId} {b : Block κ τ} (hb : t.block? id = some b) : id < t.blocks.length :=
  (getElem?_eq_some_iff.1 hb).1

omit [DecidableEq κ] in
theorem ne_new_of_nextOf {q : ParentId} {n : Dict κ BlockId} (hn : t.nextOf q = some n) : q ≠ .block t.blocks.length := by
  intro hq
  rw [hq] at hn
  obtain ⟨b, hb, -⟩ := map_eq_some_iff.1 hn
  exact lt_irrefl _ (lt_length_of_block? hb)

theorem attach_parent (q : ParentId) (hq : q ≠ .block t.blocks.length) :
    ((t.attach prev next block).nextOf q = (t.nextOf q).map fun n =>
      if prev = q then next.insert block.key t.blocks.length else n) ∧
    (t.attach prev next block).keyOf q = t.keyOf q ∧ (t.attach prev next block).childOrdinal q = t.childOrdinal q := by
  cases q with
  | root id =>
    simp only [nextOf, keyOf, childOrdinal, root?_attach, map_map]
    exact ⟨rfl, rfl, rfl⟩
  | block id =>
    simp only [nextOf, keyOf, childOrdinal, block?_attach, if_neg fun h => hq (congrArg ParentId.block h), map_map]
    exact ⟨rfl, rfl, rfl⟩

theorem of_block?_attach (hprev : prev ≠ .block t.blocks.length) {id : BlockId} {b' : Block κ τ}
    (hb' : (t.attach prev next block).block? id = some b') :
    (id = t.blocks.length ∧ b' = block) ∨ ∃ b, t.block? id = some b ∧
      b' = { b with next := if prev = .block id then next.insert block.key t.blocks.length else b.next } := by
  rw [block?_attach] at hb'
  obtain ⟨b, hb, rfl⟩ := map_eq_some_iff.1 hb'
  split at hb
  · rename_i hid
    cases hb
    rw [hid, if_neg hprev]
    exact .inl ⟨rfl, rfl⟩
  · exact .inr ⟨b, hb, rfl⟩

theorem Core.attach {prevKey : κ} (hcore : Core p t) (block : Block κ τ) (hnext : t.nextOf prev = some next)
    (hkey : t.keyOf prev = some prevKey) (hordinal : t.childOrdinal prev = some block.ordinal)
    (hfull : ∀ id b, prev = .block id → t.block? id = some b → b.tokens.length = p.tokensPerBlock)
    (hshort : block.tokens.length ≤ p.tokensPerBlock) (hmake : block.key = p.makeKey prevKey block.tokens)
    (hlink : block.prev = some prev) (hleaf : block.next = ∅) (hfresh : next.get? block.key = none) :
    Core p (t.attach prev next block) := by
  have hne := ne_new_of_nextOf hnext
  have hself : (t.attach prev next block).block? t.blocks.length = some block := by
    rw [block?_attach, if_pos rfl, map_some, if_neg hne]
  have hold : ∀ id b, t.block? id = some b → (t.attach prev next block).block? id =
      some { b with next := if prev = .block id then next.insert block.key t.blocks.length else b.next } := by
    intro id b hb
    rw [block?_attach, if_neg (ne_of_lt (lt_length_of_block? hb)), hb, map_some]
  refine ⟨?child, ?link, ?key, ?ordinal, ?older, ?full, ?short, ?root, ?attached, ?rootKey⟩
  case child =>
    intro q n hn k c hc
    by_cases hq : q = .block t.blocks.length
    · rw [hq, nextOf, hself] at hn
      cases hn
      rw [hleaf] at hc
      cases hc
    · rw [(attach_parent q hq).1] at hn
      obtain ⟨m, hm, rfl⟩ := map_eq_some_iff.1 hn
      by_cases hpq : prev = q
      · subst hpq
        rw [if_pos rfl, Dict.get?_insert] at hc
        split at hc
        · rename_i hk
          cases hc
          exact ⟨block, hself, hlink, hk.symm⟩
        · obtain ⟨b, hb, hbprev, hbkey⟩ := hcore.child prev next hnext k c hc
          exact ⟨_, hold c b hb, hbprev, hbkey⟩
      · rw [if_neg hpq] at hc
        obtain ⟨b, hb, hbprev, hbkey⟩ := hcore.child q m hm k c hc
        exact ⟨_, hold c b hb, hbprev, hbkey⟩
  case link =>
    intro id b' hb' q hq
    obtain ⟨rfl, rfl⟩ | ⟨b, hb, rfl⟩ := of_block?_attach hne hb'
    · rw [hlink] at hq
      cases hq
      refine ⟨_, by rw [(attach_parent prev hne).1, hnext, map_some, if_pos rfl], ?_⟩
      rw [Dict.get?_insert, if_pos rfl]
    · obtain ⟨n, hn, hget⟩ := hcore.link id b hb q hq
      refine ⟨_, by rw [(attach_parent q (ne_new_of_nextOf hn)).1, hn, map_some], ?_⟩
      split
      · rename_i hpq
        subst hpq
        rw [hnext] at hn
        cases hn
        rw [Dict.get?_insert, if_neg ?_]
        · exact hget
        · intro h
          rw [h, hfresh] at hget
          cases hget
      · exact hget
  case key =>
    intro id b' hb' q hq
    obtain ⟨rfl, rfl⟩ | ⟨b, hb, rfl⟩ := of_block?_attach hne hb'
    · rw [hlink] at hq
      cases hq
      exact ⟨prevKey, by rw [(attach_parent prev hne).2.1, hkey], hmake⟩
    · obtain ⟨n, hn, -⟩ := hcore.link id b hb q hq
      rw [(attach_parent q (ne_new_of_nextOf hn)).2.1]
      exact hcore.key id b hb q hq
  case ordinal =>
    intro id b' hb' q hq
    obtain ⟨rfl, rfl⟩ | ⟨b, hb, rfl⟩ := of_block?_attach hne hb'
    · rw [hlink] at hq
      cases hq
      rw [(attach_parent prev hne).2.2, hordinal]
    · obtain ⟨n, hn, -⟩ := hcore.link id b hb q hq
      rw [(attach_parent q (ne_new_of_nextOf hn)).2.2]
      exact hcore.ordinal id b hb q hq
  case older =>
    intro id b' hb' q hq
    obtain ⟨rfl, rfl⟩ | ⟨b, hb, rfl⟩ := of_block?_attach hne hb'
    · rw [hlink] at hq
      cases hq
      obtain ⟨b, hb, -⟩ := map_eq_some_iff.1 hnext
      exact lt_length_of_block? hb
    · exact hcore.older id b hb q hq
  case full =>
    intro id b' hb' hentries
    obtain ⟨rfl, rfl⟩ | ⟨b, hb, rfl⟩ := of_block?_attach hne hb'
    · rw [hleaf] at hentries
      exact absurd rfl hentries
    · by_cases hpid : prev = .block id
      · exact hfull id b hpid hb
      · rw [if_neg hpid] at hentries
        exact hcore.full id b hb hentries
  case short =>
    intro id b' hb'
    obtain ⟨rfl, rfl⟩ | ⟨b, hb, rfl⟩ := of_block?_attach hne hb'
    · exact hshort
    · exact hcore.short id b hb
  case root =>
    intro k r hr
    rw [next_attach] at hr
    obtain ⟨root, hroot, hkey, hattached⟩ := hcore.root k r hr
    have hroot' := root?_attach t prev next block r
    rw [hroot] at hroot'
    exact ⟨_, hroot', hkey, hattached⟩
  case attached =>
    intro r root' hroot' hattached
    rw [root?_attach] at hroot'
    obtain ⟨root, hroot, rfl⟩ := map_eq_some_iff.1 hroot'
    rw [next_attach]
    exact hcore.attached r root hroot hattached
  case rootKey =>
    intro r root' hroot'
    rw [root?_attach] at hroot'
    obtain ⟨root, hroot, rfl⟩ := map_eq_some_iff.1 hroot'
    exact hcore.rootKey r root hroot

end Attach

variable {self id : BlockId} {tokens : List τ} {prev parent : ParentId} {n : Nat} {b : Block κ τ} {prevKey : κ}

theorem replaceSibling_spec {k : κ} (hcore : Core p t) (h : replaceSibling n parent self t k = some t') :
    Removal t t' ∧ ∀ id b', t'.block? id = some b' → b'.prev = some parent → b'.key ≠ k := by
  obtain ⟨⟨t₁, detached⟩, hdetach, h⟩ := bind_eq_some_iff.1 h
  obtain ⟨other, hother, h⟩ := bind_eq_some_iff.1 h
  cases h
  have hadopt := adoptPagesFrom_sameLinks t₁ n self other
  refine ⟨(Removal.detach hdetach).trans (Removal.pages hadopt), fun id b' hb' hprev' hk => ?_⟩
  obtain ⟨next, hnext, ⟨-, -, hnone⟩ | ⟨child, pruned, hget, -, hcut⟩⟩ := detachNext_spec hdetach
  · rw [show detached = none from hnone] at hother
    cases hother
  obtain ⟨b₁, hb₁, hkey₁, -, -, hprev₁⟩ := hadopt.shrinks id b' hb'
  obtain ⟨b, hb, hprev, hid, hkey, -⟩ := hcut.of_prev hb₁ (hprev₁ parent hprev')
  obtain ⟨next', hnext', hlink⟩ := hcore.link id b hb parent hprev
  rw [hnext] at hnext'
  cases hnext'
  rw [← hkey, ← hkey₁, hk, hget] at hlink
  exact hid (some.inj hlink).symm

theorem replaceSiblings_spec {ks : List κ} (hcore : Core p t)
    (h : ks.foldlM (replaceSibling n parent self) t = some t') :
    Removal t t' ∧ ∀ id b', t'.block? id = some b' → b'.prev = some parent → b'.key ∉ ks := by
  induction ks generalizing t with
  | nil =>
    cases h
    exact ⟨.refl, nofun⟩
  | cons k ks ih =>
    obtain ⟨t₁, hok₁, h⟩ := bind_eq_some_iff.1 h
    obtain ⟨hremoval₁, hgone₁⟩ := replaceSibling_spec hcore hok₁
    obtain ⟨hremoval, hgone⟩ := ih (hremoval₁.core hcore) h
    refine ⟨hremoval₁.trans hremoval, fun id b' hb' hprev' hmem => ?_⟩
    rcases List.mem_cons.1 hmem with hk | hmem
    · obtain ⟨b₁, hb₁, hkey₁, -, -, hprev₁⟩ := hremoval.shrinks id b' hb'
      exact hgone₁ id b₁ hb₁ (hprev₁ parent hprev') (hkey₁.symm.trans hk)
    · exact hgone id b' hb' hprev' hmem

variable [DecidableEq τ]

theorem newBlock_spec (h : t.newBlock p tokens prev = .ok (t', self)) :
    ∃ prevKey ordinal next, t.keyOf prev = some prevKey ∧ t.childOrdinal prev = some ordinal ∧
      t.nextOf prev = some next ∧ next.get? (p.makeKey prevKey tokens) = none ∧
      (tokens.length < t.newBlockSize p prev → ∀ b ∈ next.values, (t.tokensOf b).take tokens.length ≠ tokens) ∧
      (t.coveredKeys next tokens).foldlM (replaceSibling p.lifeCycles.length prev t.blocks.length)
        (t.attach prev next ⟨p.makeKey prevKey tokens, tokens, ordinal, some prev, ∅,
          List.replicate p.lifeCycles.length none⟩) = some t' ∧
      self = t.blocks.length := by
  unfold newBlock at h
  split at h
  · split at h
    · cases h
    split at h
    · rename_i prevKey ordinal next hkey hordinal hnext
      dsimp only at h
      split at h
      · cases h
      rename_i hfresh
      split at h
      · cases h
      rename_i hcovering
      split at h
      · cases h
      split at h
      · rename_i hfold
        cases h
        refine ⟨prevKey, ordinal, next, hkey, hordinal, hnext, hfresh, fun hpartial b hb => ?_, hfold, rfl⟩
        rw [if_pos hpartial, List.find?_eq_none] at hcovering
        simpa using hcovering b hb
      · cases h
    · cases h
  · cases h

omit [DecidableEq κ] [DecidableEq τ] in
theorem tokensOf_eq (hb : t.block? id = some b) : t.tokensOf id = b.tokens := by
  rw [tokensOf, hb]
  rfl

theorem Core.not_prefix_of_sibling {next : Dict κ BlockId} (hcore : Core p t) (hkey : t.keyOf prev = some prevKey)
    (hnext : t.nextOf prev = some next) (hfresh : next.get? (p.makeKey prevKey tokens) = none)
    (hcovering : tokens.length < p.tokensPerBlock → ∀ b ∈ next.values, (t.tokensOf b).take tokens.length ≠ tokens)
    (hb : t.block? id = some b) (hprev : b.prev = some prev) (hkept : b.key ∉ t.coveredKeys next tokens) :
    ¬ b.tokens <+: tokens ∧ ¬ tokens <+: b.tokens := by
  obtain ⟨next', hnext', hlink⟩ := hcore.link id b hb prev hprev
  rw [hnext] at hnext'
  cases hnext'
  have hmem : (b.key, id) ∈ next.entries := Dict.mem_entries_iff.2 hlink
  -- the same tokens would have given the same key
  have hdiff : b.tokens ≠ tokens := by
    intro h
    obtain ⟨prevKey', hkey', hmake⟩ := hcore.key id b hb prev hprev
    rw [hkey] at hkey'
    cases hkey'
    rw [hmake, h, hfresh] at hlink
    cases hlink
  refine ⟨fun hfront => ?_, fun hfront => ?_⟩
  · rcases lt_or_eq_of_le hfront.length_le with hlt | heq
    · apply hkept
      refine List.mem_map.2 ⟨(b.key, id), List.mem_filter.2 ⟨hmem, ?_⟩, rfl⟩
      rw [tokensOf_eq hb]
      exact decide_eq_true ⟨hlt, (List.prefix_iff_eq_take.1 hfront).symm⟩
    · exact hdiff (hfront.eq_of_length heq)
  · rcases lt_or_ge tokens.length p.tokensPerBlock with hlt | hge
    · apply hcovering hlt id (List.mem_map.2 ⟨(b.key, id), hmem, rfl⟩)
      rw [tokensOf_eq hb]
      exact (List.prefix_iff_eq_take.1 hfront).symm
    · have heq : tokens.length = b.tokens.length := le_antisymm hfront.length_le ((hcore.short id b hb).trans hge)
      exact hdiff (hfront.eq_of_length heq).symm

theorem newBlock_inv (hinv : Inv p t) (hfull : ∀ id, prev = .block id → (t.tokensOf id).length = p.tokensPerBlock)
    (hshort : tokens.length ≤ p.tokensPerBlock) (hok : t.newBlock p tokens prev = .ok (t', self)) : Inv p t' := by
  obtain ⟨prevKey, ordinal, next, hkey, hordinal, hnext, hfresh, hcovering, hfold, -⟩ := newBlock_spec hok
  have hne := ne_new_of_nextOf hnext
  have hsize : t.newBlockSize p prev = p.tokensPerBlock := by
    cases prev with
    | root id => rfl
    | block id => exact hfull id rfl
  rw [hsize] at hcovering
  have hcore := hinv.toCore.attach ⟨_, tokens, ordinal, some prev, ∅, .replicate p.lifeCycles.length none⟩ hnext hkey
    hordinal (fun id b hprev hb => tokensOf_eq hb ▸ hfull id hprev) hshort rfl rfl rfl hfresh
  obtain ⟨hremoval, hgone⟩ := replaceSiblings_spec hcore hfold
  refine ⟨hremoval.core hcore, ?_⟩
  intro id b id' b' hb hb' hdiff parent hparent hparent'
  obtain ⟨c, hc, hckey, hctokens, -, hcprev⟩ := hremoval.shrinks id b hb
  obtain ⟨c', hc', hckey', hctokens', -, hcprev'⟩ := hremoval.shrinks id' b' hb'
  have hkept : parent = prev → c.key ∉ t.coveredKeys next tokens := by
    intro h
    rw [← hckey]
    exact hgone id b hb (h ▸ hparent)
  have hkept' : parent = prev → c'.key ∉ t.coveredKeys next tokens := by
    intro h
    rw [← hckey']
    exact hgone id' b' hb' (h ▸ hparent')
  rw [hctokens, hctokens']
  replace hparent := hcprev parent hparent
  replace hparent' := hcprev' parent hparent'
  -- either block may be the new one, but not both
  obtain ⟨rfl, rfl⟩ | ⟨a, ha, rfl⟩ := of_block?_attach hne hc
  · obtain ⟨rfl, -⟩ | ⟨a', ha', rfl⟩ := of_block?_attach hne hc'
    · exact absurd rfl hdiff
    · cases hparent
      exact (hinv.toCore.not_prefix_of_sibling hkey hnext hfresh hcovering ha' hparent' (hkept' rfl)).2
  · obtain ⟨rfl, rfl⟩ | ⟨a', ha', rfl⟩ := of_block?_attach hne hc'
    · cases hparent'
      exact (hinv.toCore.not_prefix_of_sibling hkey hnext hfresh hcovering ha hparent (hkept rfl)).1
    · exact hinv.apart id a id' a' ha ha' hdiff parent hparent hparent'

section AddRoot

omit [DecidableEq τ]

abbrev addRoot (p : TreeParams κ τ) (t : RadixTree κ τ) (scope : ReuseScope) : RadixTree κ τ := { t with
    next := t.next.insert (p.rootKey scope) t.roots.length
    roots := t.roots ++ [⟨p.rootKey scope, scope, true, ∅⟩] }

theorem root?_addRoot (t : RadixTree κ τ) (scope : ReuseScope) (id : RootId) :
    (addRoot p t scope).root? id =
      if id = t.roots.length then some ⟨p.rootKey scope, scope, true, ∅⟩ else t.root? id :=
  getElem?_concat_eq t.roots _ id

omit [DecidableEq κ] in
theorem lt_length_of_root? {id : RootId} {r : RootBlock κ} (hr : t.root? id = some r) : id < t.roots.length :=
  (getElem?_eq_some_iff.1 hr).1

theorem addRoot_parent {q : ParentId} {n : Dict κ BlockId} (hn : t.nextOf q = some n) (scope : ReuseScope) :
    (addRoot p t scope).nextOf q = t.nextOf q ∧ (addRoot p t scope).keyOf q = t.keyOf q ∧
      (addRoot p t scope).childOrdinal q = t.childOrdinal q := by
  cases q with
  | root id =>
    obtain ⟨r, hr, -⟩ := map_eq_some_iff.1 hn
    have hsame : (addRoot p t scope).root? id = t.root? id := by
      rw [root?_addRoot, if_neg (ne_of_lt (lt_length_of_root? hr))]
    rw [nextOf, keyOf, childOrdinal, hsame]
    exact ⟨rfl, rfl, rfl⟩
  | block id => exact ⟨rfl, rfl, rfl⟩

theorem Core.addRoot {scope : ReuseScope} (hcore : Core p t) (hfresh : t.next.get? (p.rootKey scope) = none) :
    Core p (addRoot p t scope) where
  child := by
    intro q next hnext k c hc
    by_cases hq : q = .root t.roots.length
    · rw [hq, nextOf, root?_addRoot, if_pos rfl] at hnext
      cases hnext
      cases hc
    · have hsame : (RadixTree.addRoot p t scope).nextOf q = t.nextOf q := by
        cases q with
        | root id => rw [nextOf, nextOf, root?_addRoot, if_neg fun h => hq (congrArg ParentId.root h)]
        | block id => rfl
      rw [hsame] at hnext
      exact hcore.child q next hnext k c hc
  link := by
    intro id b hb q hq
    obtain ⟨n, hn, hget⟩ := hcore.link id b hb q hq
    exact ⟨n, by rw [(addRoot_parent hn scope).1, hn], hget⟩
  key := by
    intro id b hb q hq
    obtain ⟨n, hn, -⟩ := hcore.link id b hb q hq
    rw [(addRoot_parent hn scope).2.1]
    exact hcore.key id b hb q hq
  ordinal := by
    intro id b hb q hq
    obtain ⟨n, hn, -⟩ := hcore.link id b hb q hq
    rw [(addRoot_parent hn scope).2.2]
    exact hcore.ordinal id b hb q hq
  older := hcore.older
  full := hcore.full
  short := hcore.short
  root := by
    intro k r hr
    rw [Dict.get?_insert] at hr
    rw [root?_addRoot]
    split at hr
    · rename_i hk
      cases hr
      exact ⟨_, if_pos rfl, hk.symm, rfl⟩
    · obtain ⟨root, hroot, hkey⟩ := hcore.root k r hr
      exact ⟨root, by rw [if_neg (ne_of_lt (lt_length_of_root? hroot)), hroot], hkey⟩
  attached := by
    intro r root hroot hattached
    rw [root?_addRoot] at hroot
    rw [Dict.get?_insert]
    split at hroot
    · rename_i hr
      cases hroot
      rw [if_pos rfl, hr]
    · have hself := hcore.attached r root hroot hattached
      rw [if_neg ?_]
      · exact hself
      · intro h
        rw [h, hfresh] at hself
        cases hself
  rootKey := by
    intro r root hroot
    rw [root?_addRoot] at hroot
    split at hroot
    · cases hroot
      rfl
    · exact hcore.rootKey r root hroot

end AddRoot

inductive Op (κ τ : Type) where
  | addOrGetExisting (scope : ReuseScope)
  | newBlock (tokens : List τ) (prev : ParentId)
  | detachNext (parent : ParentId) (key : κ)
  | removeSubtree (root : BlockId)
  | clearStaleBlocksAfterPageUnlink (start : BlockId) (lc : LifeCycleId) (lifeCycle : LifeCycle)
  | clear
  /-- `Block.replace_page` and `Block.unlink_page` -/
  | setPage (id : BlockId) (lc : LifeCycleId) (page : Option PageRef)

/-- One call. Callers append blocks of at most `tokens_per_block` tokens to a root block or a full block; the
constructor raises before it changes anything. -/
def Step (p : TreeParams κ τ) (t : RadixTree κ τ) (op : Op κ τ) (t' : RadixTree κ τ) : Prop :=
  match op with
  | .addOrGetExisting scope => t' = (t.addOrGetExisting p scope).1
  | .newBlock tokens prev =>
    (∀ id, prev = .block id → (t.tokensOf id).length = p.tokensPerBlock) ∧ tokens.length ≤ p.tokensPerBlock ∧
      t' = match t.newBlock p tokens prev with
        | .ok (t', _) => t'
        | .error _ => t
  | .detachNext parent key => ∃ detached, t.detachNext parent key = some (t', detached)
  | .removeSubtree root => ∃ released, t.removeSubtree root = some (t', released)
  | .clearStaleBlocksAfterPageUnlink start lc lifeCycle =>
    ∃ released, t.clearStaleBlocksAfterPageUnlink start lc lifeCycle = some (t', released)
  | .clear => t.clear = some t'
  | .setPage id lc page => t' = t.setPage id lc page

omit [DecidableEq τ] in
theorem inv_empty : Inv p (empty : RadixTree κ τ) := by
  refine ⟨⟨?child, ?_, ?_, ?_, ?_, ?_, ?_, ?_, ?_, ?_⟩, ?apart⟩
  case child =>
    intro q n hn
    cases q <;> cases hn
  case apart =>
    intro id b id' b' hb
    cases hb
  all_goals
    intro id b hb
    cases hb

theorem Inv.step {op : Op κ τ} (hinv : Inv p t) (h : Step p t op t') : Inv p t' := by
  cases op with
  | addOrGetExisting scope =>
    rw [show t' = _ from h]
    unfold addOrGetExisting
    split
    · exact hinv
    · rename_i hfresh
      exact ⟨hinv.toCore.addRoot hfresh, hinv.apart⟩
  | newBlock tokens prev =>
    obtain ⟨hfull, hshort, rfl⟩ := h
    cases hok : t.newBlock p tokens prev with
    | ok result => exact newBlock_inv hinv hfull hshort hok
    | error e => exact hinv
  | detachNext parent key =>
    obtain ⟨detached, hok⟩ := h
    exact (Removal.detach hok).inv hinv
  | removeSubtree root =>
    obtain ⟨released, hok⟩ := h
    exact (removeSubtree_removal hok).inv hinv
  | clearStaleBlocksAfterPageUnlink start lc lifeCycle =>
    obtain ⟨released, hok⟩ := h
    obtain ⟨b, -, hok⟩ := bind_eq_some_iff.1 hok
    split at hok
    · cases hok
    obtain ⟨⟨t₁, released₁⟩, hremove, hok⟩ := bind_eq_some_iff.1 hok
    obtain ⟨t₂, hprune, hok⟩ := bind_eq_some_iff.1 hok
    cases hok
    refine Removal.inv (.trans ?_ (pruneUpwards_removal hprune)) hinv
    split at hremove
    · exact removeSubtree_removal hremove
    · cases hremove
      exact .refl
  | clear => exact (clear_removal h).inv hinv
  | setPage id lc page =>
    rw [show t' = _ from h]
    exact (Removal.pages (setPage_sameLinks t id lc page)).inv hinv

theorem Inv.of_path {ops : List (Op κ τ)} (hrun : Path (Step p) empty ops t) : Inv p t := by
  have hstep : ∀ s op u, Inv p s → Step p s op u → Inv p u := fun _ _ _ hinv => hinv.step
  exact Path.invariant hstep hrun inv_empty

/-- The structure of every tree that its callers can build. -/
theorem runs_keep_structure (p : TreeParams κ τ) (ops : List (Op κ τ)) (t : RadixTree κ τ)
    (hrun : Path (Step p) empty ops t) :
    -- a child is entered under its key, which is derived from its parent's key and its tokens
    (∀ parent next, t.nextOf parent = some next → ∀ k c, next.get? k = some c →
      ∃ b prevKey, t.block? c = some b ∧ b.prev = some parent ∧ b.key = k ∧ t.keyOf parent = some prevKey ∧
        b.key = p.makeKey prevKey b.tokens ∧ t.childOrdinal parent = some b.ordinal) ∧
    (∀ id b parent, t.block? id = some b → b.prev = some parent →
      ∃ next, t.nextOf parent = some next ∧ next.get? b.key = some id) ∧
    (∀ k r, t.next.get? k = some r → ∃ root, t.root? r = some root ∧ root.attached = true ∧ root.key = k ∧
      root.key = p.rootKey root.reuseScope) ∧
    (∀ r root, t.root? r = some root → root.attached = true → t.next.get? root.key = some r) ∧
    -- a block with children is full
    (∀ id b, t.block? id = some b → b.next.entries ≠ [] → b.tokens.length = p.tokensPerBlock) ∧
    -- no child's tokens begin a sibling's
    (∀ parent next, t.nextOf parent = some next → ∀ k c k' c', next.get? k = some c → next.get? k' = some c' →
      k ≠ k' → ¬ t.tokensOf c <+: t.tokensOf c') := by
  have hinv := Inv.of_path hrun
  refine ⟨fun parent next hnext k c hc => ?_, fun id b parent hb => hinv.link id b hb parent,
    fun k r hr => ?_, hinv.attached, hinv.full, fun parent next hnext k c k' c' hc hc' hne => ?_⟩
  · obtain ⟨b, hb, hprev, hkey⟩ := hinv.child parent next hnext k c hc
    obtain ⟨prevKey, hprevKey, hmake⟩ := hinv.key c b hb parent hprev
    exact ⟨b, prevKey, hb, hprev, hkey, hprevKey, hmake, hinv.ordinal c b hb parent hprev⟩
  · obtain ⟨root, hroot, hkey, hattached⟩ := hinv.root k r hr
    exact ⟨root, hroot, hattached, hkey, hinv.rootKey r root hroot⟩
  · obtain ⟨b, hb, hprev, hkey⟩ := hinv.child parent next hnext k c hc
    obtain ⟨b', hb', hprev', hkey'⟩ := hinv.child parent next hnext k' c' hc'
    rw [tokensOf_eq hb, tokensOf_eq hb']
    apply hinv.apart c b c' b' hb hb' _ parent hprev hprev'
    intro hcc
    rw [hcc, hb'] at hb
    cases hb
    exact hne (hkey.symm.trans hkey')

/-- A full block below the root, and below it a partial block that a longer one replaces. -/
theorem runs_keep_structure_replacing :
    let p : TreeParams (List (List Nat)) Nat := ⟨fun _ => [], fun key tokens => key ++ [tokens], 2, [], by decide⟩
    ∃ t, Path (Step p) empty
        [.addOrGetExisting ⟨none, none⟩, .newBlock [1, 2] (.root 0), .newBlock [3] (.block 0), .newBlock [3, 4] (.block 0)] t ∧
      (t.nextOf (.block 0)).map Dict.entries = some [([[1, 2], [3, 4]], 2)] ∧
      ∀ id b, t.block? id = some b → b.next.entries ≠ [] → b.tokens.length = 2 := by
  intro p
  have hrun : Path (Step p) empty
      [.addOrGetExisting ⟨none, none⟩, .newBlock [1, 2] (.root 0), .newBlock [3] (.block 0), .newBlock [3, 4] (.block 0)] _ :=
    .cons rfl (.cons ⟨nofun, by decide, rfl⟩ (.cons ⟨fun id h => by cases h; rfl, by decide, rfl⟩
      (.cons ⟨fun id h => by cases h; rfl, by decide, rfl⟩ (.nil _))))
  exact ⟨_, hrun, by decide +kernel, (runs_keep_structure p _ _ hrun).2.2.2.2.1⟩

end TrtLlm.KvCache.RadixTree
