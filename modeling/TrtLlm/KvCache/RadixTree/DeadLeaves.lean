import TrtLlm.KvCache.RadixTree.Match

/-!
# Dead leaves

Cleanup takes blocks out of the tree one leaf at a time. A leaf in which no match can end (`Dead`) may go: the path of
every token sequence stays the same or loses only that leaf, so by `reuseMatch_spec` what can be reused does not get
shorter.
-/

namespace TrtLlm.KvCache.RadixTree

open List Option Prod

variable {κ τ : Type} [DecidableEq κ] {p : TreeParams κ τ} {t t' : RadixTree κ τ}

/-- `blocks` leads downwards from `q`. -/
def Chain (t : RadixTree κ τ) : ParentId → List BlockId → Prop
  | _, [] => True
  | q, x :: rest => (∃ k, t.child? q k = some x) ∧ t.Chain (.block x) rest

variable {q : ParentId} {x c a : BlockId} {lc : LifeCycleId} {k : κ} {blocks : List BlockId} {i : Nat}
  {next : Dict κ BlockId} {b : Block κ τ} {lifeCycle : LifeCycle}

theorem Core.of_child? (hcore : Core p t) (hx : t.child? q k = some x) :
    ∃ b, t.block? x = some b ∧ b.prev = some q ∧ b.key = k := by
  obtain ⟨next, hnext, hget⟩ := bind_eq_some_iff.1 hx
  exact hcore.child q next hnext k x hget

theorem descend_chain (t : RadixTree κ τ) (q : ParentId) (keys : List (List τ × κ)) :
    t.Chain q ((t.descend q keys).1.map fst) := by
  induction keys generalizing q with
  | nil => exact trivial
  | cons head rest ih =>
    rw [descend]
    split
    · rename_i child hchild
      exact ⟨⟨_, hchild⟩, ih (.block child)⟩
    · exact trivial

theorem descend_chain_append {q' : ParentId} {keys : List (List τ × κ)} {tokens : List τ}
    (h : (t.descend q keys).2 = some (q', tokens)) (hx : t.child? q' k = some x) :
    t.Chain q ((t.descend q keys).1.map fst ++ [x]) := by
  induction keys generalizing q with
  | nil => cases h
  | cons head rest ih =>
    rw [descend] at h ⊢
    split at h
    · rename_i child hchild
      exact ⟨⟨_, hchild⟩, ih h⟩
    · cases h
      exact ⟨⟨k, hx⟩, trivial⟩

theorem Chain.get {ordinal : Nat} (hcore : Core p t)
    (hchain : t.Chain q blocks) (hordinal : t.childOrdinal q = some ordinal) (hx : blocks[i]? = some x) :
    ∃ b, t.block? x = some b ∧ b.ordinal = ordinal + i ∧
      ((i = 0 ∧ b.prev = some q) ∨ ∃ j y, i = j + 1 ∧ blocks[j]? = some y ∧ b.prev = some (.block y)) := by
  induction blocks generalizing q i ordinal with
  | nil => cases hx
  | cons y rest ih =>
    obtain ⟨⟨k, hy⟩, hrest⟩ := hchain
    obtain ⟨b, hb, hprev, -⟩ := hcore.of_child? hy
    have hby : b.ordinal = ordinal := by
      rw [hcore.ordinal y b hb q hprev] at hordinal
      exact some.inj hordinal
    cases i with
    | zero =>
      cases hx
      exact ⟨b, hb, hby, .inl ⟨rfl, hprev⟩⟩
    | succ i =>
      have hnext : t.childOrdinal (.block y) = some (ordinal + 1) := by
        rw [childOrdinal, hb, map_some, hby]
      obtain ⟨b', hb', hord', hprev'⟩ := ih hrest hnext hx
      refine ⟨b', hb', by omega, .inr ?_⟩
      obtain ⟨rfl, hprev'⟩ | ⟨j, z, rfl, hz, hprev'⟩ := hprev'
      · exact ⟨0, y, rfl, rfl, hprev'⟩
      · exact ⟨j + 1, z, rfl, hz, hprev'⟩

omit [DecidableEq κ] in
/-- `a` is `c` or one of the blocks above it. -/
def Below (t : RadixTree κ τ) : BlockId → BlockId → Prop :=
  Relation.ReflTransGen fun x y => ∃ b, t.block? y = some b ∧ b.prev = some (.block x)

theorem Chain.get_above {r : RootId} {root : RootBlock κ}
    (hcore : Core p t) (hroot : t.root? r = some root) (hchain : t.Chain (.root r) blocks) (hbelow : t.Below a c)
    (hc : blocks[i]? = some c) : ∃ j ≤ i, blocks[j]? = some a := by
  have hordinal : t.childOrdinal (.root r) = some 0 := by rw [childOrdinal, hroot, map_some]
  induction hbelow generalizing i with
  | refl => exact ⟨i, le_rfl, hc⟩
  | tail _ hstep ih =>
    obtain ⟨b, hb, hprev⟩ := hstep
    obtain ⟨b', hb', -, hpos⟩ := hchain.get hcore hordinal hc
    rw [hb] at hb'
    cases hb'
    rw [hprev] at hpos
    obtain ⟨-, hpos⟩ | ⟨j, y, rfl, hy, hpos⟩ := hpos
    · cases hpos
    cases hpos
    obtain ⟨j', hj', ha⟩ := ih hy
    exact ⟨j', by omega, ha⟩

/-- `t'` is `t` without the leaf `c`, entered in `parent` under `key`; the pages of `c` may have gone, and with it a
root block without other children. -/
structure Drop (t : RadixTree κ τ) (parent : ParentId) (key : κ) (c : BlockId) (t' : RadixTree κ τ) : Prop where
  child : t.child? parent key = some c
  leaf : ∃ next, t.nextOf (.block c) = some next ∧ next.entries = []
  nextOf : ∀ q, t'.nextOf q = (t.nextOf q).map fun next => if parent = q then next.erase key else next
  tokensOf : ∀ id, t'.tokensOf id = t.tokensOf id
  coverage : ∀ id lc, id ≠ c → t'.pageCoverage id lc = t.pageCoverage id lc
  root : ∀ k, t'.next.get? k = t.next.get? k ∨ t'.next.get? k = none ∧ ∃ r next, t.next.get? k = some r ∧
    t'.nextOf (.root r) = some next ∧ next.entries = []

theorem descend_of_no_entries (hnext : t.nextOf q = some next) (hnil : next.entries = []) (keys : List (List τ × κ)) :
    (t.descend q keys).1 = [] ∧ ((t.descend q keys).2 = none ∨ ∃ tokens, (t.descend q keys).2 = some (q, tokens)) := by
  cases keys with
  | nil => exact ⟨rfl, .inl rfl⟩
  | cons head rest =>
    have hnone : t.child? q head.2 = none := by
      rw [child?, hnext, bind_some, Dict.get?_of_entries_nil hnil]
    rw [descend, hnone]
    exact ⟨rfl, .inr ⟨_, rfl⟩⟩

namespace Drop

variable {parent : ParentId} {key : κ} {c : BlockId} (hdrop : Drop t parent key c t')

include hdrop

theorem child?_eq (q : ParentId) (k : κ) : t'.child? q k = if parent = q ∧ k = key then none else t.child? q k := by
  rw [child?, hdrop.nextOf, child?]
  cases t.nextOf q with
  | none => simp
  | some next =>
    rw [map_some, bind_some, bind_some]
    by_cases hq : parent = q
    · rw [if_pos hq, Dict.get?_erase]
      simp [hq]
    · rw [if_neg hq, if_neg fun h => hq h.1]

theorem place (hcore : Core p t) {q : ParentId} {k : κ} (hc : t.child? q k = some c) : q = parent ∧ k = key := by
  obtain ⟨b, hb, hprev, hkey⟩ := hcore.of_child? hc
  obtain ⟨b', hb', hprev', hkey'⟩ := hcore.of_child? hdrop.child
  rw [hb] at hb'
  cases hb'
  rw [hprev] at hprev'
  cases hprev'
  exact ⟨rfl, hkey.symm.trans hkey'⟩

/-- A descent that does not meet the leaf is the same; one that meets it ends there, and now one block earlier. -/
theorem descend (hcore : Core p t) (q : ParentId) (keys : List (List τ × κ)) :
    (t'.descend q keys = t.descend q keys ∧ c ∉ (t.descend q keys).1.map fst) ∨
      ∃ front tokens, (t.descend q keys).1 = front ++ [(c, tokens.length)] ∧
        ((t.descend q keys).2 = none ∨ ∃ tokenBlock', (t.descend q keys).2 = some (.block c, tokenBlock')) ∧
        t'.descend q keys = (front, some (parent, tokens)) ∧ c ∉ front.map fst := by
  induction keys generalizing q with
  | nil => exact .inl ⟨rfl, not_mem_nil⟩
  | cons head rest ih =>
    obtain ⟨tokens, k⟩ := head
    rw [RadixTree.descend, RadixTree.descend, hdrop.child?_eq]
    cases hchild : t.child? q k with
    | none =>
      rw [ite_self]
      exact .inl ⟨rfl, not_mem_nil⟩
    | some x =>
      by_cases hx : x = c
      · subst hx
        obtain ⟨rfl, rfl⟩ := hdrop.place hcore hchild
        obtain ⟨next, hnext, hnil⟩ := hdrop.leaf
        obtain ⟨hmatched, hstop⟩ := descend_of_no_entries hnext hnil rest
        rw [if_pos ⟨rfl, rfl⟩]
        refine .inr ⟨[], tokens, ?_, hstop, rfl, not_mem_nil⟩
        dsimp only
        rw [hmatched]
        rfl
      · have hkeep : ¬ (parent = q ∧ k = key) := by
          rintro ⟨rfl, rfl⟩
          rw [hdrop.child] at hchild
          exact hx (some.inj hchild).symm
        rw [if_neg hkeep]
        dsimp only
        rcases ih (.block x) with ⟨hsame, hnot⟩ | ⟨front, tb, hmatched, hstop, hbroke, hnot⟩
        · rw [hsame]
          refine .inl ⟨rfl, ?_⟩
          rw [map_cons, mem_cons, not_or]
          exact ⟨Ne.symm hx, hnot⟩
        · refine .inr ⟨(x, tokens.length) :: front, tb, ?_, hstop, ?_, ?_⟩
          · rw [hmatched]
            rfl
          · rw [hbroke]
          · rw [map_cons, mem_cons, not_or]
            exact ⟨Ne.symm hx, hnot⟩

end Drop

/-! ### The best partial match without a child -/

variable [DecidableEq τ]

/-- Leaving a child out changes the best partial match only if it was that child. -/
theorem bestPartialMatch_erase {key : κ} (tokens : List τ) (hget : next.get? key = some c) :
    t.bestPartialMatch tokens (next.erase key).values = t.bestPartialMatch tokens next.values ∨
      (t.bestPartialMatch tokens next.values).1 = some c := by
  have hfold : ∀ entries : List (κ × BlockId), (∀ entry ∈ entries, entry.1 = key → entry.2 = c) →
      ∀ best best' : Option BlockId × Nat, best' = best ∨ best.1 = some c ∧ best'.2 ≤ best.2 →
        let after := (entries.map snd).foldl (t.betterPartialMatch tokens) best
        let after' := ((entries.filter fun entry => entry.1 ≠ key).map snd).foldl
          (t.betterPartialMatch tokens) best'
        after' = after ∨ after.1 = some c ∧ after'.2 ≤ after.2 := by
    intro entries
    induction entries with
    | nil => exact fun _ _ _ h => h
    | cons entry entries ih =>
      intro hkey best best' hbest
      have ih := ih (forall_mem_cons.1 hkey).2
      by_cases hentry : entry.1 = key
      · -- the child that is left out takes over the lead or changes nothing
        rw [filter_cons_of_neg (by simpa using hentry)]
        apply ih
        rw [hkey entry (.head _) hentry, betterPartialMatch]
        split
        · rename_i hlt
          rcases hbest with rfl | ⟨-, hle⟩
          · exact .inr ⟨rfl, hlt.le⟩
          · exact .inr ⟨rfl, hle.trans hlt.le⟩
        · exact hbest
      · rw [filter_cons_of_pos (by simpa using hentry)]
        apply ih
        rcases hbest with rfl | ⟨hlead, hle⟩
        · exact .inl rfl
        rw [betterPartialMatch, betterPartialMatch]
        by_cases hlt : best.2 < partialMatchThisNode tokens (t.tokensOf entry.2)
        · rw [if_pos hlt, if_pos (hle.trans_lt hlt)]
          exact .inl rfl
        rw [if_neg hlt]
        right
        split
        · exact ⟨hlead, not_lt.1 hlt⟩
        · exact ⟨hlead, hle⟩
  have hkey : ∀ entry ∈ next.entries, entry.1 = key → entry.2 = c := by
    rintro ⟨k, x⟩ hmem rfl
    rw [Dict.mem_entries_iff.1 hmem] at hget
    exact some.inj hget
  rcases hfold next.entries hkey (none, 0) (none, 0) (.inl rfl) with h | ⟨h, -⟩
  · exact .inl h
  · exact .inr h

namespace Drop

variable {parent : ParentId} {key : κ} {c : BlockId}

/-- The partial match at the end of a descent changes only at the parent of the leaf, and if it was there it was the
leaf. -/
theorem partialTail (hdrop : Drop t parent key c t') (hcore : Core p t) (enable : Bool)
    (stop : Option (ParentId × List τ)) :
    (t'.partialTail enable stop = t.partialTail enable stop ∧
        c ∉ (t.partialTail enable stop).map fst) ∨
      (∃ tokens, stop = some (parent, tokens)) ∧ (t.partialTail enable stop = [] ∨
        ∃ matchLen, t.partialTail enable stop = [(c, matchLen)]) := by
  cases stop with
  | none => exact .inl ⟨rfl, not_mem_nil⟩
  | some stop =>
    obtain ⟨q, tokens⟩ := stop
    rw [RadixTree.partialTail, RadixTree.partialTail, hdrop.nextOf]
    cases enable with
    | false => exact .inl ⟨rfl, not_mem_nil⟩
    | true =>
      rw [if_pos rfl]
      cases hnext : t.nextOf q with
      | none => exact .inl ⟨rfl, not_mem_nil⟩
      | some next =>
        rw [map_some, map_some, map_some]
        have hstep : t'.betterPartialMatch tokens = t.betterPartialMatch tokens := by
          funext best b
          rw [betterPartialMatch, betterPartialMatch, hdrop.tokensOf]
        rw [findBestPartialMatchInNextNodes, findBestPartialMatchInNextNodes, bestPartialMatch, hstep, ← bestPartialMatch]
        by_cases hq : parent = q
        · subst hq
          rw [if_pos rfl]
          have hget : next.get? key = some c := by
            have h := hdrop.child
            rwa [child?, hnext] at h
          by_cases hmany : 32 ≤ next.entries.length
          · rw [if_pos hmany]
            exact .inr ⟨⟨tokens, rfl⟩, .inl rfl⟩
          have hfew : ¬ 32 ≤ (next.erase key).entries.length := by
            have := length_filter_le (fun entry => decide (entry.1 ≠ key)) next.entries
            rw [Dict.entries_erase]
            omega
          rw [if_neg hmany, if_neg hfew]
          by_cases hbest : (t.bestPartialMatch tokens next.values).1 = some c
          · right
            refine ⟨⟨tokens, rfl⟩, .inr ⟨(t.bestPartialMatch tokens next.values).2, ?_⟩⟩
            rw [show t.bestPartialMatch tokens next.values = (some c, _) from Prod.ext hbest rfl]
            rfl
          · left
            rw [(bestPartialMatch_erase tokens hget).resolve_right hbest]
            exact ⟨rfl, fun hmem => hbest (mem_yieldPartial.1 hmem)⟩
        · rw [if_neg hq]
          refine .inl ⟨rfl, fun hmem => ?_⟩
          -- a child of another block is not the leaf
          have hbest := mem_yieldPartial.1 hmem
          split at hbest
          · cases hbest
          have hc := (bestPartialMatch_mem (Prod.ext hbest rfl : _ = (some c, _))).1
          obtain ⟨k, hk⟩ := Dict.mem_values_iff.1 hc
          have hplace := hdrop.place hcore (by rw [child?, hnext, bind_some, hk])
          exact hq hplace.1.symm

omit [DecidableEq κ] in
theorem partialTail_of_no_entries {q : ParentId} {next : Dict κ BlockId} (hnext : t.nextOf q = some next)
    (hnil : next.entries = []) (enable : Bool) {stop : Option (ParentId × List τ)}
    (hstop : stop = none ∨ ∃ tokens, stop = some (q, tokens)) : t.partialTail enable stop = [] := by
  rcases t.partialTail_cases enable stop with
    h | ⟨-, q', tb, next', best, matchLen, rfl, hnext', hmem, -⟩
  · exact h
  obtain hstop | ⟨tokens, hstop⟩ := hstop <;> cases hstop
  rw [hnext] at hnext'
  cases hnext'
  rw [Dict.values, hnil] at hmem
  cases hmem

/-- What dropping `c` does to a path: nothing, or the path loses `c`, its last block, which partial matching may make
up for. -/
def PathKept (p : TreeParams κ τ) (c : BlockId) (enablePartialMatch : Bool) (path path' : List (BlockId × Nat)) : Prop :=
  (path' = path ∧ c ∉ path.map fst) ∨ ∃ front tail tail', path = front ++ tail ∧ path' = front ++ tail' ∧
    (∀ entry ∈ front, entry.2 = p.tokensPerBlock) ∧ c ∉ front.map fst ∧
    (tail = [] ∨ ∃ matchLen, tail = [(c, matchLen)]) ∧ (enablePartialMatch = false → tail' = [])

theorem path_below (hdrop : Drop t parent key c t') (hcore : Core p t) (r : RootId) (keys : List (List τ × κ))
    (hkeys : KeysAligned p.tokensPerBlock keys) (enable : Bool) :
    PathKept p c enable
      ((t.descend (.root r) keys).1 ++ t.partialTail enable (t.descend (.root r) keys).2)
      ((t'.descend (.root r) keys).1 ++ t'.partialTail enable (t'.descend (.root r) keys).2) := by
  have hoff : ∀ (s : RadixTree κ τ) stop, enable = false → s.partialTail enable stop = [] := by
    intro s stop hfalse
    rcases s.partialTail_cases enable stop with h | ⟨h, -⟩
    · exact h
    · rw [hfalse] at h
      cases h
  rcases hdrop.descend hcore (.root r) keys with ⟨hsame, hnot⟩ | ⟨front, tokens, hmatched, hstop, hbroke, hnot⟩
  · rcases hdrop.partialTail hcore enable (t.descend (.root r) keys).2 with
      ⟨htail, hnot'⟩ | ⟨⟨tokens, hbroke⟩, htail⟩
    · left
      constructor
      · simp only [hsame, htail]
      · rw [map_append, mem_append, not_or]
        exact ⟨hnot, hnot'⟩
    · right
      have hwhole := ((descend_aligned p.tokensPerBlock_pos t (.root r) hkeys).2 _ _ hbroke).1
      exact ⟨_, _, _, rfl, by rw [← hsame], hwhole, hnot, htail, hoff t' _⟩
  · right
    have hwhole := ((descend_aligned p.tokensPerBlock_pos t' (.root r) hkeys).2 parent tokens (by rw [hbroke])).1
    have hnone : t.partialTail enable (t.descend (.root r) keys).2 = [] := by
      obtain ⟨next, hnext, hnil⟩ := hdrop.leaf
      exact partialTail_of_no_entries hnext hnil enable hstop
    rw [hbroke] at hwhole
    refine ⟨front, [(c, tokens.length)], _, ?_, by simp only [hbroke]; rfl, hwhole, hnot, .inr ⟨_, rfl⟩, hoff t' _⟩
    rw [hmatched, hnone, append_nil]

/-- Without the leaf the path of the tokens is the same, or it has lost the leaf at its end. -/
theorem matchTokenPath (hdrop : Drop t parent key c t') (hcore : Core p t) (scope : ReuseScope) (tokens : List τ)
    (enable : Bool) :
    PathKept p c enable (t.matchTokenPath p scope tokens enable) (t'.matchTokenPath p scope tokens enable) := by
  have hkeys := blockKeysLoop_aligned p tokens.length (p.rootKey scope) tokens
  have hbelow := fun r => hdrop.path_below hcore r (blockKeys p scope tokens) hkeys enable
  rw [RadixTree.matchTokenPath, RadixTree.matchTokenPath]
  rcases hdrop.root (p.rootKey scope) with hroot | ⟨hgone, r, next, hr, hnext, hnil⟩
  · rw [hroot]
    cases hr : t.next.get? (p.rootKey scope) with
    | none => exact .inl ⟨rfl, not_mem_nil⟩
    | some r => exact hbelow r
  · -- the root block went with its last child; its path is empty, as if it were still there
    rw [hgone, hr]
    have hempty : (t'.descend (.root r) (blockKeys p scope tokens)).1 ++
        t'.partialTail enable (t'.descend (.root r) (blockKeys p scope tokens)).2 = [] := by
      obtain ⟨hmatched, hstop⟩ := descend_of_no_entries hnext hnil (blockKeys p scope tokens)
      rw [hmatched]
      exact partialTail_of_no_entries hnext hnil enable hstop
    have hpath := hbelow r
    rw [hempty] at hpath
    exact hpath

end Drop

theorem matchTokenPath_chain (hcore : Core p t) (scope : ReuseScope) (tokens : List τ) (enable : Bool) :
    t.matchTokenPath p scope tokens enable = [] ∨ ∃ r root, t.root? r = some root ∧
      t.Chain (.root r) ((t.matchTokenPath p scope tokens enable).map fst) := by
  rw [matchTokenPath]
  cases hr : t.next.get? (p.rootKey scope) with
  | none => exact .inl rfl
  | some r =>
    obtain ⟨root, hroot, -⟩ := hcore.root _ r hr
    refine .inr ⟨r, root, hroot, ?_⟩
    dsimp only
    rcases t.partialTail_cases enable (t.descend (.root r) (blockKeys p scope tokens)).2 with
      hnil | ⟨-, q, tokens, next, best, matchLen, hbroke, hnext, hmem, -, -, htail⟩
    · rw [hnil, append_nil]
      exact descend_chain t (.root r) _
    · obtain ⟨k, hk⟩ := Dict.mem_values_iff.1 hmem
      rw [htail, map_append]
      exact descend_chain_append hbroke (by rw [child?, hnext, bind_some, hk])

variable (p)

def Dead (t : RadixTree κ τ) (c : BlockId) : Prop :=
  ∀ r root blocks i n, t.root? r = some root → t.Chain (.root r) blocks → blocks[i]? = some c →
    i * p.tokensPerBlock < n → n ≤ i * p.tokensPerBlock + p.tokensPerBlock →
      ¬ Reusable p.tokensPerBlock p.lifeCycles (fun lc id => t.pageCoverage id lc) blocks n

/-- Matches are not shorter in `t'` than in `t`, and the same length if whole blocks are matched only. -/
def MatchesKept (t t' : RadixTree κ τ) : Prop :=
  ∀ scope tokens enablePartialMatch, ∃ result result', t.reuseMatch p scope tokens enablePartialMatch = some result ∧
    t'.reuseMatch p scope tokens enablePartialMatch = some result' ∧ result.numTokens ≤ result'.numTokens ∧
    (enablePartialMatch = false → result'.numTokens = result.numTokens)

theorem MatchesKept.refl (t : RadixTree κ τ) : MatchesKept p t t := by
  intro scope tokens enable
  obtain ⟨result, hresult, -⟩ := t.reuseMatch_spec p scope tokens enable
  exact ⟨result, result, hresult, hresult, le_rfl, fun _ => rfl⟩

variable {p}

theorem MatchesKept.trans {t₁ t₂ t₃ : RadixTree κ τ} (h : MatchesKept p t₁ t₂) (h' : MatchesKept p t₂ t₃) :
    MatchesKept p t₁ t₃ := by
  intro scope tokens enable
  obtain ⟨r₁, r₂, h₁, h₂, hle, heq⟩ := h scope tokens enable
  obtain ⟨r₂', r₃, h₂', h₃, hle', heq'⟩ := h' scope tokens enable
  rw [h₂] at h₂'
  cases h₂'
  exact ⟨r₁, r₃, h₁, h₃, hle.trans hle', fun hoff => (heq' hoff).trans (heq hoff)⟩

namespace Drop

variable {parent : ParentId} {key : κ} {c : BlockId}

theorem matchesKept (hdrop : Drop t parent key c t') (hcore : Core p t) (hdead : Dead p t c) : MatchesKept p t t' := by
  intro scope tokens enable
  obtain ⟨result, hresult, hlongest⟩ := t.reuseMatch_spec p scope tokens enable
  obtain ⟨result', hresult', hlongest'⟩ := t'.reuseMatch_spec p scope tokens enable
  refine ⟨result, result', hresult, hresult', ?_⟩
  rcases hdrop.matchTokenPath hcore scope tokens enable with
    ⟨hsame, hnot⟩ | ⟨front, tail, tail', hpath, hpath', hwhole, hnot, htail, hoff⟩
  · rw [hsame] at hlongest'
    have heq : result'.numTokens = result.numTokens := hlongest.eq_of_coverage hlongest' fun b hb lc =>
      hdrop.coverage b lc fun h => hnot (h ▸ hb)
    exact ⟨heq.ge, fun _ => heq⟩
  · have haligned := t.matchTokenPath_aligned p scope tokens enable
    have hchain := matchTokenPath_chain hcore scope tokens enable
    rw [hpath] at hlongest haligned hchain
    rw [hpath'] at hlongest'
    have hcoverage : ∀ b ∈ front.map fst, ∀ lc, t'.pageCoverage b lc = t.pageCoverage b lc := by
      intro b hb lc
      exact hdrop.coverage b lc fun h => hnot (h ▸ hb)
    -- the longest match does not end in the leaf
    have hshort : result.numTokens ≤ (front.map fst).length * p.tokensPerBlock := by
      rw [length_map]
      apply not_lt.1
      intro hlong
      rcases htail with rfl | ⟨matchLen, rfl⟩
      · have := hlongest.le
        rw [append_nil, numMatchedTokens_of_whole hwhole] at this
        omega
      · obtain hnil | ⟨r, root, hroot, hchain⟩ := hchain
        · simp at hnil
        · have hle := hlongest.le
          have hmatch := (haligned.pos (c, matchLen) (by simp)).2
          rw [numMatchedTokens_append_singleton] at hle
          exact hdead r root _ front.length _ hroot hchain (by simp) hlong (by omega) hlongest.reusable
    rw [map_append] at hlongest hlongest'
    have hbound := length_mul_le_numMatchedTokens hwhole tail
    have hbound' := length_mul_le_numMatchedTokens hwhole tail'
    rw [length_map] at hshort
    have hle : result.numTokens ≤ result'.numTokens :=
      hlongest'.le_of_reusable (hshort.trans hbound') (hlongest.reusable.append_congr
        (by rwa [length_map]) (hcoverage) (tail'.map fst))
    refine ⟨hle, fun hdisabled => le_antisymm ?_ hle⟩
    have hshort' := hlongest'.le
    rw [hoff hdisabled, append_nil, numMatchedTokens_of_whole hwhole] at hshort'
    exact hlongest.le_of_reusable (hshort'.trans hbound) (hlongest'.reusable.append_congr
      (by rwa [length_map]) (fun b hb lc => (hcoverage b hb lc).symm) (tail.map fst))

end Drop

omit [DecidableEq κ] [DecidableEq τ] in
theorem pageCoverage_of_getPage_eq_none {id : BlockId} (hpage : t.getPage id lc = none) : t.pageCoverage id lc = 0 := by
  rw [pageCoverage, hpage]
  rfl

omit [DecidableEq τ] in
/-- Below a block that is always needed and has no page nothing can be reused. -/
theorem dead_of_pinned (hcore : Core p t)
    (hlc : p.lifeCycles[lc]? = some lifeCycle) (hbelow : t.Below a c) (ha : t.block? a = some b)
    (hpins : lifeCycle.pins b.ordinal = true) (hpage : t.getPage a lc = none) : Dead p t c := by
  intro r root blocks i n hroot hchain hc hlt hle hreuse
  obtain ⟨j, hj, haj⟩ := hchain.get_above hcore hroot hbelow hc
  have hordinal : t.childOrdinal (.root r) = some 0 := by rw [childOrdinal, hroot, map_some]
  obtain ⟨b', hb', hord, -⟩ := hchain.get hcore hordinal haj
  rw [ha] at hb'
  cases hb'
  cases lifeCycle with
  | ssm => cases hpins
  | attn attn =>
    have hjn : j * p.tokensPerBlock < n := (Nat.mul_le_mul_right _ hj).trans_lt hlt
    have hpinned : attn.windowSize = none ∨ j < attn.numSinkBlocks := by
      rw [LifeCycle.pins, Bool.or_eq_true, isNone_iff_eq_none, decide_eq_true_iff] at hpins
      rwa [hord, zero_add] at hpins
    have hcover := hreuse.attn lc attn (mem_attentionLifeCycles.2 hlc) j a hjn haj
      (AttnLifeCycle.not_mem_getStaleRange_of_pinned p.tokensPerBlock_pos hjn hpinned)
    dsimp only at hcover
    rw [pageCoverage_of_getPage_eq_none hpage] at hcover
    omega

omit [DecidableEq τ] in
theorem dead_of_missing (hnodup : p.lifeCycles.Nodup)
    (hlc : p.lifeCycles[lc]? = some lifeCycle) (hkind : lifeCycle.EndsNeedPage)
    (hpage : t.getPage c lc = none) : Dead p t c := by
  intro r root blocks i n hroot hchain hc hlt hle hreuse
  have hcoverage := pageCoverage_of_getPage_eq_none hpage
  cases lifeCycle with
  | ssm =>
    have hid : ssmLifeCycleId p.lifeCycles = some lc := by
      obtain ⟨hlt, hget⟩ := List.getElem?_eq_some_iff.1 hlc
      rw [ssmLifeCycleId, getLifeCycleId, if_pos (mem_of_getElem? hlc), ← hget, hnodup.idxOf_getElem lc hlt]
    have hsnap := hreuse.ssm lc hid i c hlt hle hc
    dsimp only at hsnap
    omega
  | attn attn =>
    obtain ⟨w, hw, htwo⟩ := hkind
    have hcover := hreuse.attn lc attn (mem_attentionLifeCycles.2 hlc) i c hlt hc
      (AttnLifeCycle.not_mem_getStaleRange_last p.tokensPerBlock_pos hle hw htwo)
    dsimp only at hcover
    omega

/-! ### The leaves that the cleanup drops -/

section Steps

omit [DecidableEq τ]

variable {parent : ParentId} {key : κ} {c : BlockId}

theorem Cut.getPage_eq {pruned : Bool} (hcut : Cut t parent key c pruned t') (id : BlockId) (lc : LifeCycleId) :
    t'.getPage id lc = t.getPage id lc := by
  rw [getPage, getPage, hcut.block]
  cases t.block? id <;> rfl

omit [DecidableEq κ] in
theorem getPage_releasePages (t : RadixTree κ τ) (block id : BlockId) (lc : LifeCycleId) :
    (t.releasePages block).1.getPage id lc = if id = block then none else t.getPage id lc := by
  rw [getPage, releasePages, block?_modifyBlock, getPage]
  cases t.block? id with
  | none => simp
  | some b =>
    by_cases hid : block = id
    · subst hid
      simp only [map_some, bind_some, if_true, getElem?_map]
      cases b.storage[lc]? <;> rfl
    · simp [hid, Ne.symm hid]

omit [DecidableEq κ] in
theorem SameLinks.tokensOf_eq (h : SameLinks t t') (id : BlockId) : t'.tokensOf id = t.tokensOf id := by
  obtain ⟨f, hf⟩ := h.block id
  rw [tokensOf, tokensOf, hf, Option.map_map]
  rfl

theorem Cut.tokensOf_eq {pruned : Bool} (hcut : Cut t parent key c pruned t') (id : BlockId) :
    t'.tokensOf id = t.tokensOf id := by
  rw [tokensOf, hcut.block, Option.map_map]
  rfl

theorem Drop.of_detach {t₁ : RadixTree κ τ} {b : Block κ τ} (h : SameLinks t t₁)
    (honly : ∀ id lc, id ≠ c → t₁.getPage id lc = t.getPage id lc) (hb : t.block? c = some b)
    (hleaf : b.next.entries = []) (hok : t₁.detachNext parent key = some (t', some c)) : Drop t parent key c t' := by
  obtain ⟨next, hnext, ⟨-, -, hnone⟩ | ⟨child, pruned, hget, hchild, hcut⟩⟩ := detachNext_spec hok
  · cases hnone
  cases hchild
  rw [h.nextOf_eq] at hnext
  refine ⟨?child, ?leaf, ?nextOf, ?tokensOf, ?coverage, ?root⟩
  case child => rw [child?, hnext, bind_some, hget]
  case leaf => exact ⟨b.next, by rw [RadixTree.nextOf, hb, map_some], hleaf⟩
  case nextOf =>
    intro q
    rw [hcut.nextOf_eq, h.nextOf_eq]
  case tokensOf =>
    intro id
    rw [hcut.tokensOf_eq, h.tokensOf_eq]
  case coverage =>
    intro id lc hid
    rw [pageCoverage, pageCoverage, hcut.getPage_eq, honly id lc hid]
  case root =>
    intro k
    cases pruned with
    | false =>
      rw [hcut.next_eq rfl, h.next]
      exact .inl rfl
    | true =>
      obtain ⟨id, r, rfl, hr, hself, herase, hnil⟩ := hcut.next_erase rfl
      rw [h.next] at hself herase
      rw [herase, Dict.get?_erase]
      by_cases hk : k = r.key
      · rw [if_pos hk, hk]
        refine .inr ⟨rfl, id, r.next.erase key, hself, ?_, hnil⟩
        rw [hcut.nextOf_eq, RadixTree.nextOf, hr, map_some, map_some, if_pos rfl]
      · rw [if_neg hk]
        exact .inl rfl

end Steps

theorem SameLinks.matchTokenPath_eq (h : SameLinks t t') (scope : ReuseScope) (tokens : List τ)
    (enable : Bool) :
    t'.matchTokenPath p scope tokens enable = t.matchTokenPath p scope tokens enable := by
  have hdescend : ∀ q keys, t'.descend q keys = t.descend q keys := by
    intro q keys
    induction keys generalizing q with
    | nil => rfl
    | cons head rest ih =>
      rw [descend, descend, child?, child?, h.nextOf_eq]
      cases (t.nextOf q).bind (·.get? head.2) with
      | none => rfl
      | some child =>
        dsimp only
        rw [ih]
  have htail : ∀ stop, t'.partialTail enable stop = t.partialTail enable stop := by
    intro stop
    cases stop with
    | none => rfl
    | some stop =>
      have hstep : t'.betterPartialMatch stop.2 = t.betterPartialMatch stop.2 := by
        funext best b
        rw [betterPartialMatch, betterPartialMatch, h.tokensOf_eq]
      simp only [partialTail, h.nextOf_eq, findBestPartialMatchInNextNodes, bestPartialMatch, hstep]
  simp only [matchTokenPath, h.next, hdescend, htail]

theorem matchesKept_of_unlinked (hcore : Core p t) (hpages : SameLinks t t')
    (honly : ∀ id lc, id ≠ c → t'.getPage id lc = t.getPage id lc) (hb : t.block? c = some b) (hprev : b.prev = none) :
    MatchesKept p t t' := by
  intro scope tokens enable
  obtain ⟨result, hresult, hlongest⟩ := t.reuseMatch_spec p scope tokens enable
  obtain ⟨result', hresult', hlongest'⟩ := t'.reuseMatch_spec p scope tokens enable
  rw [hpages.matchTokenPath_eq] at hlongest'
  have hnot : c ∉ (t.matchTokenPath p scope tokens enable).map fst := by
    intro hmem
    rcases matchTokenPath_chain hcore scope tokens enable with hnil | ⟨r, root, hroot, hchain⟩
    · rw [hnil] at hmem
      cases hmem
    have hordinal : t.childOrdinal (.root r) = some 0 := by rw [childOrdinal, hroot, map_some]
    obtain ⟨i, hi⟩ := mem_iff_getElem?.1 hmem
    obtain ⟨b', hb', -, hlink⟩ := hchain.get hcore hordinal hi
    rw [hb] at hb'
    cases hb'
    rw [hprev] at hlink
    obtain ⟨-, hlink⟩ | ⟨_, _, _, _, hlink⟩ := hlink <;> cases hlink
  have heq : result'.numTokens = result.numTokens := hlongest.eq_of_coverage hlongest' fun x hx lc => by
    rw [pageCoverage, pageCoverage, honly x lc fun h => hnot (h ▸ hx)]
  exact ⟨result, result', hresult, hresult', heq.ge, fun _ => heq⟩

end TrtLlm.KvCache.RadixTree
