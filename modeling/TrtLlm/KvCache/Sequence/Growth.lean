import TrtLlm.KvCache.Sequence.Invariant

/-!
# Blocks that go stale and new blocks

The two halves of `resize`: `_unlock_stale_blocks`, which a failed call undoes, and the distribution of the new slots
over the new blocks, which uses them up exactly.
-/

namespace TrtLlm.KvCache.KVCache

open List HalfOpenRange

variable {τ : Type} {M : KVCacheManager} {s : KVCache τ} {h' ordinal : Nat} {lc : LifeCycleId}
  {excess : LifeCycleId → List SlotId} {delta : LifeCycleId → Int}

/-- The pages that `_unlock_stale_blocks` leaves: it keeps a holder of what may still be committed. -/
def unlockedPages (M : KVCacheManager) (s : KVCache τ) (h : Nat) (i : Nat) (lc : LifeCycleId) : Option BlockPage :=
  if (i, lc) ∈ s.newlyStale M h then
    (s.page i lc).bind fun p => if s.holdForCommit M i then some p.holder else none
  else s.page i lc

/-- What it returns, for a call that has to undo it. -/
def unlockBackup (M : KVCacheManager) (s : KVCache τ) (h : Nat) : List (Nat × LifeCycleId × BlockPage) :=
  (s.newlyStale M h).filterMap fun entry => (s.page entry.1 entry.2).map fun p => (entry.1, entry.2, p.holder)

theorem unlockStaleBlocks_eq (hcore : s.Core M) (hactive : s.status = .active) (hle : s.historyLength ≤ h') :
    unlockStaleBlocks M h' s = .ok (s.unlockBackup M h') (s.withPages (s.unlockedPages M h')) := by
  have hloop : (s.newlyStale M h').forM (unlockStaleBlock M) s = .ok ⟨⟩ (s.withPages (s.unlockedPages M h')) := by
    refine forM_entries _ _ nodup_newlyStale hcore.tabled (fun _ _ hmem => if_neg hmem) fun i lc hmem t f ht hpage => ?_
    subst ht
    obtain ⟨-, -, -, hfresh⟩ := (mem_newlyStale hle).1 hmem
    have hhold : (s.withPages f).holdForCommit M i = s.holdForCommit M i := by
      unfold holdForCommit
      rw [isCommitted_withPages]
      rfl
    rw [unlockStaleBlock, get_bind_apply, unlockedPages, if_pos hmem]
    rw [hpage, hhold]
    cases hold : s.page i lc with
    | none => exact ok_eq_withPages_put tabled_withPages (hpage.trans hold)
    | some p =>
      dsimp only
      rw [bind_ok (assertCache_of (hcore.locked hactive i lc p hold hfresh)), assignPage_eq tabled_withPages]
      · rfl
      · split <;> rfl
  rw [unlockStaleBlocks, get_bind_apply, bind_ok hloop]
  rfl

theorem mem_unlockBackup {x : Nat × LifeCycleId × BlockPage} : x ∈ s.unlockBackup M h' ↔
    ∃ p, (x.1, x.2.1) ∈ s.newlyStale M h' ∧ s.page x.1 x.2.1 = some p ∧ x.2.2 = p.holder := by
  obtain ⟨i, lc, q⟩ := x
  rw [unlockBackup, mem_filterMap]
  constructor
  · rintro ⟨⟨i', lc'⟩, hentry, hsome⟩
    obtain ⟨p, hp, heq⟩ := Option.map_eq_some_iff.1 hsome
    cases heq
    exact ⟨p, hentry, hp, rfl⟩
  · rintro ⟨p, hentry, hp, hq⟩
    exact ⟨(i, lc), hentry, Option.map_eq_some_iff.2 ⟨p, hp, by rw [← hq]⟩⟩

/-- `_lock_held_blocks` brings back what `_unlock_stale_blocks` took, perhaps in other slots. -/
theorem lockHeldBlocks_eq (hcore : s.Core M) (hactive : s.status = .active) (hle : s.historyLength ≤ h')
    (slotOf : Nat → LifeCycleId → SlotId) :
    ∃ pages, lockHeldBlocks (.ok slotOf) (s.unlockBackup M h') (s.withPages (s.unlockedPages M h')) =
        .ok ⟨⟩ (s.withPages pages) ∧ SameKind pages s.page := by
  have hnodup : ((s.unlockBackup M h').map fun x => (x.1, x.2.1)).Nodup := by
    rw [unlockBackup, map_filterMap]
    apply List.Nodup.filterMap _ nodup_newlyStale
    intro a a' b hb hb'
    simp only [Option.map_map, Option.mem_def, Option.map_eq_some_iff] at hb hb'
    obtain ⟨_, -, rfl⟩ := hb
    obtain ⟨_, -, heq⟩ := hb'
    exact heq.symm
  have hloop := forM_withPages (s := s.withPages (s.unlockedPages M h'))
    (fun x : Nat × LifeCycleId × BlockPage => (x.1, x.2.1))
    (fun i lc => if (i, lc) ∈ s.newlyStale M h' then
      (s.page i lc).map fun p => BlockPage.mk p.committed (some (slotOf i lc)) else s.page i lc)
    (fun x => lockPage x.1 x.2.1 x.2.2.committed (slotOf x.1 x.2.1)) _ hnodup tabled_withPages
    (fun i lc hout => ?_) fun x hx t f ht hpage => ?_
  · refine ⟨_, withPages_withPages ▸ hloop, fun i lc => ?_⟩
    split
    · rename_i hentry
      cases hp : s.page i lc with
      | none => rfl
      | some p =>
        show some (p.committed, true) = some (p.committed, p.isLock)
        rw [hcore.locked hactive i lc p hp ((mem_newlyStale hle).1 hentry).2.2.2]
    · rfl
  · split
    · rename_i hentry
      have hnone : s.page i lc = none := by
        by_contra hne
        obtain ⟨p, hp⟩ := Option.ne_none_iff_exists'.1 hne
        exact hout (mem_map.2 ⟨(i, lc, p.holder), mem_unlockBackup.2 ⟨p, hentry, hp, rfl⟩, rfl⟩)
      rw [page_withPages ((mem_newlyStale hle).1 hentry).2.1, unlockedPages, if_pos hentry, hnone]
      rfl
    · rename_i hentry
      exact (page_withPages_of_eq (if_neg hentry)).symm
  · obtain ⟨p, hentry, hp, hq⟩ := mem_unlockBackup.1 hx
    have hlen := lt_length_of_page hp
    subst ht
    rw [if_pos hentry, hp, hq]
    apply lockPage_eq tabled_withPages
    · simpa using hlen
    · rw [hpage, page_withPages hlen, unlockedPages, if_pos hentry, hp]
      split <;> rfl

/-- The index table while blocks are added: it has entries for `n` blocks to come. -/
def TabledTo (s : KVCache τ) (n : Nat) : Prop :=
  ∀ lc, s.basePageIndices lc = (s.blocks.map fun block => basePageIndex (block.pages lc)) ++ List.replicate n badPageIndex

theorem forM_writeLockedIndex (slotOf : LifeCycleId → SlotId) (lcs : List LifeCycleId)
    (hnodup : lcs.Nodup) (hbad : ∀ lc ∈ lcs, (s.basePageIndices lc)[ordinal]? = some badPageIndex) :
    lcs.forM (fun lc => writeLockedIndex ordinal lc (slotOf lc)) s = .ok ⟨⟩ { s with
        basePageIndices := fun lc =>
          if lc ∈ lcs then (s.basePageIndices lc).set ordinal (slotOf lc) else s.basePageIndices lc } := by
  induction lcs generalizing s with
  | nil => rfl
  | cons lc lcs ih =>
    rw [nodup_cons] at hnodup
    have hfirst : writeLockedIndex ordinal lc (slotOf lc) s = .ok ⟨⟩ (s.setBasePageIndex ordinal lc (slotOf lc)) := by
      unfold writeLockedIndex
      rw [get_bind_apply, hbad lc (by simp)]
      rfl
    have hother : ∀ l ∈ lcs, l ≠ lc := fun l hl h => hnodup.1 (h ▸ hl)
    have hrest := ih (s := s.setBasePageIndex ordinal lc (slotOf lc)) hnodup.2 (by
      intro l hl
      show (if l = lc then _ else _)[ordinal]? = _
      rw [if_neg (hother l hl)]
      exact hbad l (by simp [hl]))
    refine .trans (forM_cons_ok hfirst) ?_
    rw [hrest]
    unfold setBasePageIndex
    congr 2
    funext l
    dsimp only
    by_cases hl : l = lc
    · subst hl
      rw [if_neg hnodup.1, if_pos rfl, if_pos (by simp)]
    · simp [hl]

variable {h c : Nat}

theorem mem_pagedLifeCycles :
    lc ∈ s.pagedLifeCycles M h c ordinal ↔ M.isAttention lc = true ∧ ordinal ∉ s.withoutPage M lc h c := by
  rw [pagedLifeCycles, mem_filter]
  constructor
  · rintro ⟨-, hboth⟩
    rw [Bool.and_eq_true, decide_eq_true_iff] at hboth
    exact hboth
  · rintro ⟨hattn, hnot⟩
    rw [Bool.and_eq_true, decide_eq_true_iff]
    exact ⟨M.lt_size_of_isAttention hattn, hattn, hnot⟩

/-- What is known of a block that `resize` adds. -/
structure NewBlock (M : KVCacheManager) (s : KVCache τ) (h c ordinal : Nat) (block : SeqBlock) : Prop where
  uncommitted : block.treeBlock = false
  paged : ∀ lc, M.isAttention lc = true → ordinal ∉ s.withoutPage M lc h c → ∃ slot, block.pages lc = some ⟨false, some slot⟩
  unpaged : ∀ lc, ¬ (M.isAttention lc = true ∧ ordinal ∉ s.withoutPage M lc h c) → block.pages lc = none

def withNewBlocks (s : KVCache τ) (new : List SeqBlock) (scratch : LifeCycleId → List SlotId) : KVCache τ := { s with
    blocks := s.blocks ++ new
    basePageIndices := fun lc => (s.blocks ++ new).map fun block => basePageIndex (block.pages lc)
    scratchSlots := scratch }

def withBlock (s : KVCache τ) (block : SeqBlock) (n : Nat) : KVCache τ := { s with
    blocks := s.blocks ++ [block]
    basePageIndices := fun lc =>
      ((s.blocks ++ [block]).map fun block => basePageIndex (block.pages lc)) ++ List.replicate n badPageIndex }

theorem addBlock_eq {n : Nat} {slots : LifeCycleId → List SlotId} (htab : s.TabledTo (n + 1))
    (hslots : ∀ lc ∈ s.pagedLifeCycles M h c s.blocks.length, slots lc ≠ []) :
    ∃ block : SeqBlock, addBlock M h c slots s.blocks.length s =
        .ok (fun lc => if lc ∈ s.pagedLifeCycles M h c s.blocks.length then (slots lc).dropLast else slots lc)
          (s.withBlock block n) ∧
      NewBlock M s h c s.blocks.length block := by
  set paged := s.pagedLifeCycles M h c s.blocks.length with hpaged
  have hnodup : paged.Nodup := M.nodup_lifeCycleIds.filter _
  have hbad : ∀ lc ∈ paged, (s.basePageIndices lc)[s.blocks.length]? = some badPageIndex := by
    intro lc _
    rw [htab lc]
    simp
  have hwrite := forM_writeLockedIndex (fun lc => (slots lc).getLastD 0) paged hnodup hbad
  refine ⟨⟨fun lc => if lc ∈ paged then some ⟨false, some ((slots lc).getLastD 0)⟩ else none, false⟩, ?_, rfl, ?_, ?_⟩
  · rw [addBlock, get_bind_apply]
    rw [bind_ok (checkCache_of (by simpa using hslots)), bind_ok hwrite, modify_bind_apply]
    show EStateM.Result.ok _ _ = EStateM.Result.ok _ _
    congr 2
    funext lc
    dsimp only
    rw [htab lc, replicate_succ]
    by_cases hlc : lc ∈ paged <;> simp [hlc, basePageIndex]
  · exact fun lc hattn hnot => ⟨_, if_pos (mem_pagedLifeCycles.2 ⟨hattn, hnot⟩)⟩
  · exact fun lc hnot => if_neg fun hmem => hnot (mem_pagedLifeCycles.1 hmem)

/-- The loop over the new blocks uses up the slots exactly. -/
theorem foldlM_addBlock (n : Nat) (slots : LifeCycleId → List SlotId) (htab : s.TabledTo n)
    (hslots : ∀ lc ∈ M.lifeCycleIds, (slots lc).length = if M.isAttention lc then (s.withoutPage M lc h c).countOutside
      s.blocks.length n else 0) :
    ∃ (new : List SeqBlock) (left : LifeCycleId → List SlotId),
      (List.range' s.blocks.length n).foldlM (addBlock M h c) slots s = .ok left (s.withNewBlocks new s.scratchSlots) ∧
      new.length = n ∧ (∀ lc ∈ M.lifeCycleIds, left lc = []) ∧
      ∀ j block, new[j]? = some block → NewBlock M s h c (s.blocks.length + j) block := by
  induction n generalizing s slots with
  | zero =>
    refine ⟨[], slots, ?_, rfl, ?_, ?_⟩
    · have htable : s.basePageIndices = fun lc => s.blocks.map fun block => basePageIndex (block.pages lc) := by
        funext lc
        simpa using htab lc
      rw [withNewBlocks, append_nil, ← htable]
      rfl
    · intro lc hlc
      have hzero := hslots lc hlc
      apply eq_nil_of_length_eq_zero
      rw [hzero]
      split <;> rfl
    · intro j block hj
      simp at hj
  | succ n ih =>
    have hfirst : ∀ lc ∈ s.pagedLifeCycles M h c s.blocks.length, slots lc ≠ [] := by
      intro lc hlc
      obtain ⟨hattn, hnot⟩ := mem_pagedLifeCycles.1 hlc
      have hlen := hslots lc (M.lt_size_of_isAttention hattn)
      rw [if_pos hattn, countOutside_succ_of_not_mem hnot] at hlen
      intro hnil
      rw [hnil] at hlen
      simp at hlen
    obtain ⟨block, hadd, hblock⟩ := addBlock_eq htab hfirst
    have hlength : (s.withBlock block n).blocks.length = s.blocks.length + 1 := length_append
    obtain ⟨new, left, hrest, hnew, hleft, hblocks⟩ := ih (s := s.withBlock block n) (fun lc =>
        if lc ∈ s.pagedLifeCycles M h c s.blocks.length then (slots lc).dropLast else slots lc) (fun lc => rfl) (by
      intro lc hlc
      have hlen := hslots lc hlc
      rw [hlength]
      by_cases hattn : M.isAttention lc = true
      · rw [if_pos hattn] at hlen ⊢
        by_cases hin : s.blocks.length ∈ s.withoutPage M lc h c
        · rw [countOutside_succ_of_mem hin] at hlen
          rw [if_neg fun hmem => (mem_pagedLifeCycles.1 hmem).2 hin]
          exact hlen
        · rw [countOutside_succ_of_not_mem hin] at hlen
          rw [if_pos (mem_pagedLifeCycles.2 ⟨hattn, hin⟩), length_dropLast, hlen]
          rfl
      · rw [if_neg hattn] at hlen ⊢
        rw [if_neg fun hmem => hattn (mem_pagedLifeCycles.1 hmem).1]
        exact hlen)
    refine ⟨block :: new, left, ?_, by rw [length_cons, hnew], hleft, ?_⟩
    · rw [range'_succ, foldlM_cons, bind_ok hadd, ← hlength, hrest]
      simp only [withNewBlocks, withBlock, append_assoc, singleton_append]
    intro j b hj
    cases j with
    | zero =>
      cases hj
      exact hblock
    | succ j =>
      have hb := hblocks j b hj
      rw [hlength, add_right_comm] at hb
      exact { hb with }

theorem numNewSlots_eq {old new : Nat} (hle : old ≤ new) (hstop : divUp h M.tokensPerBlock ≤ new) :
    s.numNewSlots M old new h c lc =
      if M.isAttention lc then (s.withoutPage M lc h c).countOutside old (new - old) else 0 := by
  unfold numNewSlots
  by_cases hattn : M.isAttention lc = true
  · rw [hattn, countOutside_eq]
    have hbounds := M.staleRange_beg_le_stop (h := h) hattn
    have hend := (M.staleRange_stop_le hattn).trans hstop
    unfold withoutPage
    cases henable : s.enableSwaScratchReuse with
    | true =>
      simp only [Bool.not_true, Bool.false_eq_true, if_true, if_false]
      rw [Nat.add_sub_cancel' hle]
    | false =>
      simp only [Bool.not_true, Bool.false_eq_true, if_true, if_false, HalfOpenRange.intersect, HalfOpenRange.length]
      split <;> omega
  · simp [hattn]

theorem newGpuSlots_cases (answer : Except StorageError (LifeCycleId → Nat → SlotId)) (net : LifeCycleId → Int)
    (s : KVCache τ) :
    (∃ slots, newGpuSlots M answer net s = .ok (some slots) s ∧ ∀ lc ∈ M.lifeCycleIds, (slots lc).length = (net lc).toNat) ∨
    (∃ lc ∈ M.lifeCycleIds, 0 < net lc) ∧
      ((answer = .error .outOfPages ∧ newGpuSlots M answer net s = .ok none s) ∨
        ∃ e, e ≠ .outOfPages ∧ answer = .error e ∧ newGpuSlots M answer net s = .error (.storage e) s) := by
  unfold newGpuSlots
  split
  · rename_i hany
    obtain ⟨lc, hlc, hpos⟩ := any_eq_true.1 hany
    cases answer with
    | ok supply =>
      left
      refine ⟨_, rfl, ?_⟩
      intro lc _
      rw [length_map, length_range]
    | error e =>
      refine .inr ⟨⟨lc, hlc, of_decide_eq_true hpos⟩, ?_⟩
      by_cases hoom : e = .outOfPages
      · subst hoom
        exact .inl ⟨rfl, rfl⟩
      · refine .inr ⟨e, hoom, rfl, ?_⟩
        cases e <;> first | rfl | exact absurd rfl hoom
  · rename_i hany
    left
    refine ⟨_, rfl, ?_⟩
    intro lc hlc
    have hneg : ¬ 0 < net lc := fun hpos => hany (any_eq_true.2 ⟨lc, hlc, decide_eq_true hpos⟩)
    show 0 = _
    omega

theorem assertCache_all {l : List LifeCycleId} {q : LifeCycleId → Prop} [DecidablePred q] (h : ∀ lc ∈ l, q lc) :
    assertCache (l.all fun lc => decide (q lc)) s = .ok ⟨⟩ s :=
  assertCache_of (all_eq_true.2 fun lc hlc => decide_eq_true (h lc hlc))

/-- The slots that the new blocks need in a growth to capacity `c`. -/
def numNewFor (M : KVCacheManager) (s : KVCache τ) (h c : Nat) : LifeCycleId → Nat :=
  s.numNewSlots M (divUp s.capacity M.tokensPerBlock) (divUp c M.tokensPerBlock) h c

/-- What is known of the blocks and the scratch slots when `resize` has added blocks. -/
structure Grown (M : KVCacheManager) (s : KVCache τ) (h c : Nat) (delta : LifeCycleId → Int) (new : List SeqBlock)
    (scratch : LifeCycleId → List SlotId) : Prop where
  length : (s.blocks ++ new).length = divUp c M.tokensPerBlock
  block : ∀ j block, new[j]? = some block → NewBlock M s h c (s.blocks.length + j) block
  scratch : ∀ lc ∈ M.lifeCycleIds, delta lc ≤ 0 → scratch lc = s.scratchSlots lc

/-- The slots are just enough: no assertion of the distribution fails. -/
theorem distributeSlots_eq {newSlots : LifeCycleId → List SlotId} (htab : s.Tabled)
    (hlen : s.blocks.length = divUp s.capacity M.tokensPerBlock)
    (hgrow : divUp s.capacity M.tokensPerBlock ≤ divUp c M.tokensPerBlock)
    (hle : h ≤ c)
    (hexcess : ∀ lc, (excess lc).length = (-delta lc).toNat)
    (hcount : ∀ lc ∈ M.lifeCycleIds, (newSlots lc).length = ((s.numNewFor M h c lc : Int) + delta lc).toNat) :
    ∃ new scratch, distributeSlots M c h excess delta (s.numNewFor M h c) newSlots s =
      .ok ⟨⟩ (s.withNewBlocks new scratch) ∧ Grown M s h c delta new scratch := by
  set numNew := s.numNewFor M h c with hnumNew
  let all : LifeCycleId → List SlotId := fun lc => newSlots lc ++ excess lc
  let kept : LifeCycleId → List SlotId := fun lc =>
    (all lc).take ((all lc).length - (-((numNew lc : Int) + delta lc)).toNat)
  have hkept : ∀ lc ∈ M.lifeCycleIds, (kept lc).length = numNew lc + (delta lc).toNat := by
    intro lc hlc
    have h1 := hcount lc hlc
    have h2 := hexcess lc
    have h3 : (all lc).length = (newSlots lc).length + (excess lc).length := length_append
    rw [length_take]
    omega
  have htable : ∀ lc ∈ M.lifeCycleIds, (s.basePageIndices lc).length = divUp s.capacity M.tokensPerBlock := by
    intro lc _
    rw [htab lc, length_map, hlen]
  let s' : KVCache τ := { s with
    scratchSlots := fun lc => s.scratchSlots lc ++ ((kept lc).drop (numNew lc)).reverse
    basePageIndices := fun lc => s.basePageIndices lc ++
      replicate (divUp c M.tokensPerBlock - divUp s.capacity M.tokensPerBlock) badPageIndex }
  have hlen' : s'.blocks.length = divUp s.capacity M.tokensPerBlock := hlen
  have htab' : s'.TabledTo (divUp c M.tokensPerBlock - divUp s.capacity M.tokensPerBlock) := by
    intro lc
    show s.basePageIndices lc ++ _ = _
    rw [htab lc]
  have hslots : ∀ lc ∈ M.lifeCycleIds, ((kept lc).take (numNew lc)).length =
      if M.isAttention lc then (s'.withoutPage M lc h c).countOutside s'.blocks.length
        (divUp c M.tokensPerBlock - divUp s.capacity M.tokensPerBlock) else 0 := by
    intro lc hlc
    rw [length_take, hkept lc hlc, min_eq_left (by omega), hnumNew, numNewFor, numNewSlots_eq hgrow (divUp_mono hle),
      hlen']
    rfl
  obtain ⟨new, left, hfold, hnewLen, hleft, hblocks⟩ := foldlM_addBlock _ _ htab' hslots
  refine ⟨new, s'.scratchSlots, ?_, ?_, ?_, ?_⟩
  · rw [hlen'] at hfold
    rw [distributeSlots, get_bind_apply]
    rw [bind_ok (assertCache_all hkept), modify_bind_apply, bind_ok (assertCache_all htable), modify_bind_apply,
      bind_ok hfold, assertCache_all hleft]
    rfl
  · rw [length_append]
    omega
  · intro j block hj
    exact { hblocks j block hj with }
  · intro lc hlc hdelta
    have hnone : (kept lc).drop (numNew lc) = [] := by
      apply drop_eq_nil_of_le
      rw [hkept lc hlc]
      omega
    show s.scratchSlots lc ++ ((kept lc).drop (numNew lc)).reverse = s.scratchSlots lc
    rw [hnone, reverse_nil, append_nil]

/-- How the part of `resize` that adds blocks ends: with the new blocks, or as the storage manager fails. -/
theorem growBlocks_cases (answers : ResizeAnswers) (backup : List (Nat × LifeCycleId × BlockPage)) (htab : s.Tabled)
    (hlen : s.blocks.length = divUp s.capacity M.tokensPerBlock)
    (hgrow : divUp s.capacity M.tokensPerBlock ≤ divUp c M.tokensPerBlock) (hle : h ≤ c)
    (hexcess : ∀ lc, (excess lc).length = (-delta lc).toNat) :
    (∃ new scratch, growBlocks M answers c h excess delta backup s = .ok true (s.withNewBlocks new scratch) ∧
      Grown M s h c delta new scratch) ∨
    (∃ lc ∈ M.lifeCycleIds, 0 < (s.numNewFor M h c lc : Int) + delta lc) ∧
      ((answers.newGpuSlots = .error .outOfPages ∧
        growBlocks M answers c h excess delta backup s =
          (lockHeldBlocks answers.lockToGpu backup >>= fun _ => pure false)
            { s with scratchSlots := fun lc => s.scratchSlots lc ++ excess lc }) ∨
      ∃ e, e ≠ .outOfPages ∧ answers.newGpuSlots = .error e ∧
        growBlocks M answers c h excess delta backup s = .error (.storage e) s) := by
  have hstaleCheck : onlyWhen (!s.enableSwaScratchReuse) (assertCache <| M.lifeCycleIds.all fun lc =>
      !M.isAttention lc || !decide (divUp s.capacity M.tokensPerBlock < (M.staleRange lc h).beg) ||
        decide ((M.staleRange lc h).stop ≤ divUp c M.tokensPerBlock)) s = .ok ⟨⟩ s := by
    unfold onlyWhen
    split
    · apply assertCache_of
      rw [all_eq_true]
      intro lc _
      cases hattn : M.isAttention lc with
      | false => rfl
      | true =>
        have := (M.staleRange_stop_le hattn).trans (divUp_mono hle)
        simp [this]
    · rfl
  rw [growBlocks, get_bind_apply, bind_ok hstaleCheck]
  rcases newGpuSlots_cases answers.newGpuSlots (fun lc => (s.numNewFor M h c lc : Int) + delta lc) s with
    ⟨slots, hok, hcount⟩ | ⟨hasked, ⟨hanswer, hnone⟩ | ⟨e, hne, hanswer, hraise⟩⟩
  · obtain ⟨new, scratch, hrun, hnew⟩ := distributeSlots_eq htab hlen hgrow hle hexcess hcount
    exact .inl ⟨new, scratch, (bind_ok hok).trans (bind_ok hrun), hnew⟩
  · exact .inr ⟨hasked, .inl ⟨hanswer, (bind_ok hnone).trans rfl⟩⟩
  · exact .inr ⟨hasked, .inr ⟨e, hne, hanswer, bind_error hraise⟩⟩

end TrtLlm.KvCache.KVCache
