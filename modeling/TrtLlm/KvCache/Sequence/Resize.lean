import TrtLlm.KvCache.Sequence.Growth

/-!
# Resizing

`resize_spec` says all that callers know of `resize`: it keeps the invariant and sets the lengths, and needed pages are
missing afterwards only if a block that was there already lacks one (`Covers`).
-/

namespace TrtLlm.KvCache.KVCache

open List

variable {τ : Type} {M : KVCacheManager} {s : KVCache τ}

theorem deleteBlocks_eq (htab : s.Tabled) (n : Nat) : deleteBlocks M n s = .ok ⟨⟩ { s with
      blocks := s.blocks.take n
      basePageIndices := fun lc => (s.blocks.take n).map fun block => basePageIndex (block.pages lc) } := by
  have hdropped : ∀ lc, (s.dropBlocks n).basePageIndices lc =
      ((s.blocks.take n).map fun block => basePageIndex (block.pages lc)) ++ replicate (s.blocks.length - n) badPageIndex := by
    intro lc
    apply ext_getElem?
    intro i
    show ((s.basePageIndices lc).mapIdx _)[i]? = _
    rw [htab lc, getElem?_mapIdx, getElem?_map]
    cases hblock : s.blocks[i]? with
    | none =>
      have hlen := getElem?_eq_none_iff.1 hblock
      rw [getElem?_eq_none]
      · rfl
      · simp
        omega
    | some block =>
      have hlen := (List.getElem?_eq_some_iff.1 hblock).1
      by_cases hi : i < n
      · rw [getElem?_append_left (by simp; omega), getElem?_map, getElem?_take_of_lt hi, hblock]
        simp [not_le.2 hi]
      rw [getElem?_append_right (by simp; omega), getElem?_replicate, if_pos (by simp; omega)]
      rw [Option.map_some, Option.map_some, page_of_getElem? hblock]
      congr 1
      split
      · rfl
      · rename_i hnot
        apply basePageIndex_of_not_isLock
        by_contra hlock
        exact hnot ⟨not_lt.1 hi, by simpa using hlock⟩
  have hcheck : (M.lifeCycleIds.all fun lc =>
      (((s.dropBlocks n).basePageIndices lc).drop n).all fun index => decide (index = badPageIndex)) = true := by
    rw [all_eq_true]
    intro lc _
    rw [hdropped lc, all_eq_true]
    intro index hindex
    rw [drop_append, drop_eq_nil_of_le (by simp)] at hindex
    exact decide_eq_true (eq_of_mem_replicate (mem_of_mem_drop hindex))
  have htable : (fun lc => ((s.dropBlocks n).basePageIndices lc).take n) =
      fun lc => (s.blocks.take n).map fun block => basePageIndex (block.pages lc) := by
    funext lc
    rw [hdropped lc]
    by_cases hn : n ≤ s.blocks.length
    · rw [take_append_of_le_length (by simp [hn]), take_of_length_le (by simp)]
    · rw [Nat.sub_eq_zero_of_le (by omega), replicate_zero, append_nil, take_of_length_le (by simp)]
  rw [deleteBlocks, modify_bind_apply, get_bind_apply, bind_ok (assertCache_of hcheck)]
  show EStateM.Result.ok _ { s.dropBlocks n with
    basePageIndices := fun lc => ((s.dropBlocks n).basePageIndices lc).take n } = _
  rw [htable]
  rfl

/-- What `resize` leaves behind when it succeeds. -/
structure Resized (M : KVCacheManager) (s t : KVCache τ) (c h : Nat) : Prop where
  status : t.status = s.status
  commitState : t.commitState = s.commitState
  committedTokens : t.committedTokens = s.committedTokens
  numCommittedBlocks : t.numCommittedBlocks = s.numCommittedBlocks
  ssmBlock : t.ssmBlock = s.ssmBlock
  neverResumed : t.neverResumed = s.neverResumed
  enable : t.enableSwaScratchReuse = s.enableSwaScratchReuse
  capacity : t.capacity = c
  historyLength : t.historyLength = h
  tabled : t.Tabled
  length_blocks : t.blocks.length = divUp c M.tokensPerBlock
  isCommitted : ∀ i, i < t.blocks.length → t.isCommitted i = s.isCommitted i
  /-- A page in a block that was there and is not stale now stays. -/
  kept : ∀ i lc, i < s.blocks.length → i < t.blocks.length →
    ¬ (M.isAttention lc = true ∧ i ∈ M.staleRange lc h ∧ i ∉ M.staleRange lc s.historyLength) →
    t.page i lc = s.page i lc
  stale : ∀ i lc, i < s.blocks.length → M.isAttention lc = true → i ∈ M.staleRange lc h →
    i ∉ M.staleRange lc s.historyLength → ∀ p, t.page i lc = some p →
      s.holdForCommit M i = true ∧ ∃ q, s.page i lc = some q ∧ p = q.holder
  paged : ∀ i lc, s.blocks.length ≤ i → i < t.blocks.length → M.isAttention lc = true →
    i ∉ s.withoutPage M lc h c → ∃ slot, t.page i lc = some ⟨false, some slot⟩
  unpaged : ∀ i lc, s.blocks.length ≤ i → ¬ (M.isAttention lc = true ∧ i ∉ s.withoutPage M lc h c) → t.page i lc = none
  scratchOff : s.ScratchOff M → t.ScratchOff M

/-- A failed `resize` changes slot ids at most. -/
structure Restored (M : KVCacheManager) (s t : KVCache τ) : Prop where
  exists_pages : ∃ pages scratch, t = { s.withPages pages with scratchSlots := scratch } ∧ SameKind pages s.page
  scratchOff : s.ScratchOff M → t.ScratchOff M

def AsksSlots (M : KVCacheManager) (s : KVCache τ) (c h : Nat) : Prop :=
  ∃ lc ∈ M.lifeCycleIds, 0 < (s.numNewSlots M (divUp s.capacity M.tokensPerBlock) (divUp c M.tokensPerBlock) h c lc :
    Int) + s.deltaScratchSlots M lc h c

def StorageFails (answers : ResizeAnswers) : Prop :=
  (∃ e, e ≠ .outOfPages ∧ answers.newGpuSlots = .error e) ∨
    (answers.newGpuSlots = .error .outOfPages ∧ ∃ e, answers.lockToGpu = .error e)

variable {t : KVCache τ} {i c h : Nat}

/-- The cache after `resize`: `bs` are the blocks it had, cut or with new ones behind them. -/
def resizedTo (M : KVCacheManager) (s : KVCache τ) (c h : Nat) (bs : List SeqBlock) (scratch : LifeCycleId → List SlotId) :
    KVCache τ :=
  { s.withPages (s.unlockedPages M h) with
    blocks := bs
    basePageIndices := fun lc => bs.map fun block => basePageIndex (block.pages lc)
    scratchSlots := scratch
    capacity := c
    historyLength := h }

theorem resized_of (hle : s.historyLength ≤ h) {bs : List SeqBlock}
    (hlen : bs.length = divUp c M.tokensPerBlock)
    (hold : ∀ i, i < s.blocks.length → i < bs.length → bs[i]? = (s.withPages (s.unlockedPages M h)).blocks[i]?)
    (hnew : ∀ j block, bs[s.blocks.length + j]? = some block → NewBlock M s h c (s.blocks.length + j) block)
    {scratch : LifeCycleId → List SlotId}
    (hscratch : s.ScratchOff M → s.enableSwaScratchReuse = false → ∀ lc ∈ M.lifeCycleIds, scratch lc = []) :
    Resized M s (s.resizedTo M c h bs scratch) c h := by
  have hpage : ∀ i lc, i < s.blocks.length → i < bs.length →
      (s.resizedTo M c h bs scratch).page i lc = s.unlockedPages M h i lc := by
    intro i lc hi hi'
    refine .trans ?_ (page_withPages hi)
    rw [page, page, ← hold i hi hi']
    rfl
  have hpageNew : ∀ i lc, s.blocks.length ≤ i → ∀ block, bs[i]? = some block →
      (s.resizedTo M c h bs scratch).page i lc = block.pages lc ∧ NewBlock M s h c i block := by
    intro i lc hi block hblock
    obtain ⟨j, rfl⟩ := Nat.exists_eq_add_of_le hi
    exact ⟨page_of_getElem? hblock, hnew j block hblock⟩
  exact
    { status := rfl, commitState := rfl, committedTokens := rfl, numCommittedBlocks := rfl, ssmBlock := rfl
      neverResumed := rfl, enable := rfl, capacity := rfl, historyLength := rfl
      tabled := fun _ => rfl
      length_blocks := hlen
      isCommitted := fun i hi => by
        by_cases hi' : i < s.blocks.length
        · refine .trans ?_ (isCommitted_withPages : (s.withPages (unlockedPages M s h)).isCommitted i = _)
          rw [isCommitted, isCommitted, ← hold i hi' hi]
          rfl
        · have hblock := getElem?_eq_getElem hi
          have hnone : s.blocks[i]? = none := getElem?_eq_none (not_lt.1 hi')
          rw [isCommitted, isCommitted, hnone, hblock]
          exact (hpageNew i 0 (not_lt.1 hi') _ hblock).2.uncommitted
      kept := fun i lc hi hi' hnot => by
        rw [hpage i lc hi hi', unlockedPages, if_neg]
        intro hmem
        obtain ⟨hattn, -, hin, hout⟩ := (mem_newlyStale hle).1 hmem
        exact hnot ⟨hattn, hin, hout⟩
      stale := fun i lc hi hattn hin hout p hp => by
        have hmem := (mem_newlyStale hle).2 ⟨hattn, hi, hin, hout⟩
        rw [hpage i lc hi (lt_length_of_page hp), unlockedPages, if_pos hmem] at hp
        obtain ⟨q, hq, hp⟩ := Option.bind_eq_some_iff.1 hp
        split at hp
        · rename_i hhold
          exact ⟨hhold, q, hq, (Option.some.inj hp).symm⟩
        · cases hp
      paged := fun i lc hi hi' hattn hnot => by
        obtain ⟨hpages, hblock⟩ := hpageNew i lc hi _ (getElem?_eq_getElem hi')
        rw [hpages]
        exact hblock.paged lc hattn hnot
      unpaged := fun i lc hi hnot => by
        by_cases hi' : i < bs.length
        · obtain ⟨hpages, hblock⟩ := hpageNew i lc hi _ (getElem?_eq_getElem hi')
          rw [hpages]
          exact hblock.unpaged lc hnot
        · exact page_eq_none (not_lt.1 hi')
      scratchOff := hscratch }

theorem neededScratchSlots_eq_zero (henable : s.enableSwaScratchReuse = false) (lc : LifeCycleId) (h c : Nat) :
    s.neededScratchSlots M lc h c = 0 := by
  unfold neededScratchSlots scratchRangeAt
  simp [henable, HalfOpenRange.length, divUp, eq_zero_or_pos]

/-- The cache and the lengths that `resize` works on after its checks. -/
structure Resizable (M : KVCacheManager) (s : KVCache τ) (c h : Nat) : Prop where
  core : s.Core M
  active : s.status = .active
  history : s.historyLength ≤ h
  capacity : h ≤ c
  scratch : s.enableSwaScratchReuse = true → h ≤ s.capacity

/-- Why `resize` raises after its checks. -/
def ResizeRaises (M : KVCacheManager) (answers : ResizeAnswers) (s : KVCache τ) (c h : Nat) : Prop :=
  s.hasScratchSlots M = true ∨ (s.AsksSlots M c h ∧ StorageFails answers)

theorem Ends.check {α : Type} {cond : Bool} {error : CacheError} {f : PUnit → CacheM τ α} {Q : α → KVCache τ → Prop}
    {E : CacheError → KVCache τ → Prop} (hraise : cond = false → E error s)
    (hthen : cond = true → Ends (f ⟨⟩ s) Q E) : Ends ((checkCache cond error >>= f) s) Q E := by
  cases hcond : cond with
  | true =>
    exact hthen hcond
  | false =>
    exact hraise hcond

theorem resizeBlocks_ends (hs : s.Resizable M c h) (ans : ResizeAnswers) :
    Ends (resizeBlocks M ans c h s)
      (fun grown t => if grown then Resized M s t c h else Restored M s t ∧ s.AsksSlots M c h)
      (fun _ _ => s.ResizeRaises M ans c h) := by
  obtain ⟨hcore, hactive, hh, hle, _⟩ := hs
  have hunlock := unlockStaleBlocks_eq hcore hactive hh
  set pages := s.unlockedPages M h
  have hlen : (s.withPages pages).blocks.length = divUp s.capacity M.tokensPerBlock :=
    length_blocks_withPages.trans hcore.length_blocks
  rw [resizeBlocks, bind_ok hunlock, get_bind_apply]
  by_cases hshrink : divUp c M.tokensPerBlock < divUp (s.withPages pages).capacity M.tokensPerBlock
  · rw [if_pos hshrink, shrinkTo]
    apply Ends.check fun hslots => .inl (Bool.not_inj (y := true) hslots)
    intro _
    rw [bind_ok (deleteBlocks_eq tabled_withPages _)]
    apply resized_of hh
    · rw [length_take, hlen]
      exact min_eq_left hshrink.le
    · intro i _ hi
      rw [length_take] at hi
      exact getElem?_take_of_lt (by omega)
    · intro j block hblock
      have hj := (List.getElem?_eq_some_iff.1 hblock).1
      rw [length_take, hcore.length_blocks] at hj
      omega
    · intro hoff henable lc hlc
      show ((s.scratchSlots lc).take _) = []
      rw [hoff henable lc hlc, take_nil]
  · rw [if_neg hshrink, growTo, get_bind_apply, bind_ok (show takeExcessScratchSlots M c h _ = .ok _ _ from rfl)]
    have hexcess : ∀ lc, ((((s.withPages pages).scratchSlots lc).drop
        ((s.withPages pages).neededScratchSlots M lc h c)).reverse).length =
        (-(s.withPages pages).deltaScratchSlots M lc h c).toNat := by
      intro lc
      rw [length_reverse, length_drop, deltaScratchSlots]
      omega
    have hoff' : ∀ {lc}, s.ScratchOff M → s.enableSwaScratchReuse = false → lc ∈ M.lifeCycleIds →
        (s.withPages pages).deltaScratchSlots M lc h c ≤ 0 := by
      intro lc hoff henable hlc
      have hzero : (s.withPages pages).neededScratchSlots M lc h c = 0 := neededScratchSlots_eq_zero henable lc h c
      rw [deltaScratchSlots]
      omega
    rcases growBlocks_cases ans (s.unlockBackup M h)
      (s := { s.withPages pages with scratchSlots := fun lc =>
        ((s.withPages pages).scratchSlots lc).take ((s.withPages pages).neededScratchSlots M lc h c) })
      tabled_withPages hlen (not_lt.1 hshrink) hle hexcess with
      ⟨new, scratch, hgrow, hnewLen, hnew, hscratch⟩ | ⟨hasked, ⟨hoom, hundo⟩ | ⟨e, hne, hanswer, hraise⟩⟩
    · rw [bind_ok hgrow]
      apply resized_of hh hnewLen
      · intro i hi _
        exact getElem?_append_left (by simpa using hi)
      · intro j block hblock
        rw [getElem?_append_right (by simp)] at hblock
        have hj := hnew j block (by simpa using hblock)
        rw [show (s.withPages pages).blocks.length = s.blocks.length from length_blocks_withPages] at hj
        exact { hj with }
      · intro hoff henable lc hlc
        show scratch lc = []
        rw [hscratch lc hlc (hoff' hoff henable hlc)]
        show (s.scratchSlots lc).take _ = []
        rw [hoff henable lc hlc, take_nil]
    · rw [bind_congr_apply hundo]
      set scratch : LifeCycleId → List SlotId := fun lc =>
        ((s.withPages pages).scratchSlots lc).take ((s.withPages pages).neededScratchSlots M lc h c) ++
          (((s.withPages pages).scratchSlots lc).drop ((s.withPages pages).neededScratchSlots M lc h c)).reverse
      cases hlock : ans.lockToGpu with
      | error e => exact .of_error rfl (.inr ⟨hasked, .inr ⟨hoom, e, hlock⟩⟩)
      | ok slotOf =>
        obtain ⟨pages', hrelock, hsame⟩ := lockHeldBlocks_eq (hcore.scratchSlots scratch) hactive hh slotOf
        have hrun : (lockHeldBlocks (.ok slotOf) (s.unlockBackup M h) >>= fun _ => pure false)
            ({ s with scratchSlots := scratch }.withPages pages) =
            .ok false ({ s with scratchSlots := scratch }.withPages pages') := bind_ok hrelock
        refine .of_ok (bind_ok hrun) ?_
        refine ⟨⟨⟨pages', scratch, rfl, hsame⟩, ?_⟩, hasked⟩
        intro hoff henable lc hlc
        show (s.scratchSlots lc).take _ ++ ((s.scratchSlots lc).drop _).reverse = []
        rw [hoff henable lc hlc, take_nil, drop_nil]
        rfl
    · exact .of_error (bind_error hraise) (.inr ⟨hasked, .inl ⟨e, hne, hanswer⟩⟩)

theorem isCommitted_eq_false (hi : s.blocks.length ≤ i) : s.isCommitted i = false := by
  rw [isCommitted, getElem?_eq_none hi]
  rfl

def Covers (M : KVCacheManager) (s : KVCache τ) (h c : Nat) : Prop :=
  ∀ i lc, i < s.blocks.length → i < divUp c M.tokensPerBlock → M.isAttention lc = true → i ∉ M.staleRange lc h →
    i ∉ s.scratchRangeAt M lc h c → s.page i lc ≠ none

namespace Resized

variable {t : KVCache τ} {c h : Nat}

/-- What a page after `resize` comes from: a page that stays, one that is held for a later commit, or a new one. -/
theorem page_cases (hr : Resized M s t c h) {i : Nat} {lc : LifeCycleId} {p : BlockPage} (hp : t.page i lc = some p) :
    (i < s.blocks.length ∧ s.page i lc = some p ∧
      ¬ (M.isAttention lc = true ∧ i ∈ M.staleRange lc h ∧ i ∉ M.staleRange lc s.historyLength)) ∨
    (i < s.blocks.length ∧ s.holdForCommit M i = true ∧ i ∈ M.staleRange lc h ∧ ∃ q, s.page i lc = some q ∧ p = q.holder) ∨
    (s.blocks.length ≤ i ∧ M.isAttention lc = true ∧ i ∉ s.withoutPage M lc h c ∧ ∃ slot, p = ⟨false, some slot⟩) := by
  have hi := lt_length_of_page hp
  by_cases hold : i < s.blocks.length
  · by_cases hstale : M.isAttention lc = true ∧ i ∈ M.staleRange lc h ∧ i ∉ M.staleRange lc s.historyLength
    · obtain ⟨hhold, q, hq, heq⟩ := hr.stale i lc hold hstale.1 hstale.2.1 hstale.2.2 p hp
      exact .inr (.inl ⟨hold, hhold, hstale.2.1, q, hq, heq⟩)
    · exact .inl ⟨hold, hr.kept i lc hold hi hstale ▸ hp, hstale⟩
  · have hge := not_lt.1 hold
    by_cases hpaged : M.isAttention lc = true ∧ i ∉ s.withoutPage M lc h c
    · obtain ⟨slot, hslot⟩ := hr.paged i lc hge hi hpaged.1 hpaged.2
      rw [hp] at hslot
      exact .inr (.inr ⟨hge, hpaged.1, hpaged.2, slot, Option.some.inj hslot⟩)
    · rw [hr.unpaged i lc hge hpaged] at hp
      cases hp

theorem not_mem_staleRange (hcore : s.Core M) (hscratch : s.enableSwaScratchReuse = true → h ≤ s.capacity) {i : Nat}
    {lc : LifeCycleId} (hge : s.blocks.length ≤ i) (hattn : M.isAttention lc = true)
    (hpaged : i ∉ s.withoutPage M lc h c) : i ∉ M.staleRange lc h := by
  intro hmem
  unfold withoutPage at hpaged
  cases henable : s.enableSwaScratchReuse with
  | false =>
    rw [henable] at hpaged
    exact hpaged hmem
  | true =>
    have hstop := M.staleRange_stop_le (h := h) hattn
    have hup : divUp h M.tokensPerBlock ≤ divUp s.capacity M.tokensPerBlock := divUp_mono (hscratch henable)
    rw [hcore.length_blocks] at hge
    rw [HalfOpenRange.mem_iff] at hmem
    omega

theorem core (hr : Resized M s t c h) (hs : s.Resizable M c h) : t.Core M := by
  obtain ⟨hcore, hactive, hh, hle, hscratch⟩ := hs
  have hresumed := hcore.resumed hactive
  have hnot : ¬ t.neverResumed = true := by simp [hr.neverResumed, hresumed]
  exact
    { isOpen := hr.status ▸ hcore.isOpen
      tabled := hr.tabled
      history_le := by
        rw [hr.historyLength, hr.capacity]
        exact hle
      length_blocks := by rw [hr.length_blocks, hr.capacity]
      attention := fun i lc p hp => by
        rcases hr.page_cases hp with ⟨-, hs, -⟩ | ⟨-, -, -, q, hs, -⟩ | ⟨-, hattn, -⟩
        · exact hcore.attention i lc p hs
        · exact hcore.attention i lc q hs
        · exact hattn
      locked := fun _ i lc p hp hlive => by
        rw [hr.historyLength] at hlive
        rcases hr.page_cases hp with ⟨-, hs, -⟩ | ⟨-, -, hin, -⟩ | ⟨-, -, -, slot, rfl⟩
        · exact hcore.locked hactive i lc p hs fun hmem =>
            hlive (M.staleRange_mono (hcore.attention i lc p hs) hh hmem)
        · exact absurd hin hlive
        · rfl
      unlocked := fun i lc p hp hstale => by
        have hin := hstale (hr.status.trans hactive)
        rw [hr.historyLength] at hin
        rcases hr.page_cases hp with ⟨-, hs, hnot⟩ | ⟨-, -, -, q, -, rfl⟩ | ⟨hge, hattn, hpaged, -⟩
        · refine hcore.unlocked i lc p hs fun _ => ?_
          by_contra hout
          exact hnot ⟨hcore.attention i lc p hs, hin, hout⟩
        · rfl
        · exact absurd hin (not_mem_staleRange hcore hscratch hge hattn hpaged)
      stale_committed := fun i lc hattn hmem hcommitted => by
        rw [hr.historyLength] at hmem
        cases hp : t.page i lc with
        | none => rfl
        | some p =>
          rw [hr.isCommitted i (lt_length_of_page hp)] at hcommitted
          rcases hr.page_cases hp with ⟨-, hs, hnot⟩ | ⟨-, hhold, -⟩ | ⟨hge, -⟩
          · have hstale : i ∈ M.staleRange lc s.historyLength := by
              by_contra hout
              exact hnot ⟨hattn, hmem, hout⟩
            rw [hcore.stale_committed i lc hattn hstale hcommitted] at hs
            cases hs
          · unfold holdForCommit at hhold
            rw [hcommitted] at hhold
            simp at hhold
          · rw [isCommitted_eq_false hge] at hcommitted
            cases hcommitted
      kind := fun i lc p hp => by
        rw [hr.isCommitted i (lt_length_of_page hp)]
        rcases hr.page_cases hp with ⟨-, hs, -⟩ | ⟨-, -, -, q, hs, rfl⟩ | ⟨hge, -, -, slot, rfl⟩
        · exact hcore.kind i lc p hs
        · exact hcore.kind i lc q hs
        · exact (isCommitted_eq_false hge).symm
      uncommitted := fun _ i hi => by
        rw [hr.numCommittedBlocks] at hi
        by_cases hlen : i < t.blocks.length
        · rw [hr.isCommitted i hlen]
          exact hcore.uncommitted hresumed i hi
        · exact isCommitted_eq_false (not_lt.1 hlen)
      suspended_of_never := fun hnever => absurd hnever hnot
      capacity_of_never := fun hnever => absurd hnever hnot
      blocks_of_never := fun hnever => absurd hnever hnot
      committed_of_never := fun hnever => absurd hnever hnot
      not_virtualStop := hr.commitState ▸ hcore.not_virtualStop }

theorem scratchRange_eq (hr : Resized M s t c h) (lc : LifeCycleId) : t.scratchRange M lc = s.scratchRangeAt M lc h c := by
  rw [scratchRange, scratchRangeAt, scratchRangeAt, hr.enable, hr.historyLength, hr.capacity]

theorem present_iff (hr : Resized M s t c h) : t.Present M ↔ s.Covers M h c := by
  constructor
  · intro hpresent i lc hi hi' hattn hlive hscratch hnone
    rw [← hr.length_blocks] at hi'
    refine hpresent i lc hi' hattn (hr.historyLength ▸ hlive) (hr.scratchRange_eq lc ▸ hscratch) ?_
    rw [hr.kept i lc hi hi' fun hstale => hlive hstale.2.1]
    exact hnone
  · intro hcovers i lc hi hattn hlive hscratch
    rw [hr.historyLength] at hlive
    rw [hr.scratchRange_eq] at hscratch
    by_cases hold : i < s.blocks.length
    · rw [hr.kept i lc hold hi fun hstale => hlive hstale.2.1]
      exact hcovers i lc hold (hr.length_blocks ▸ hi) hattn hlive hscratch
    have hpaged : i ∉ s.withoutPage M lc h c := by
      unfold withoutPage
      split
      · exact hscratch
      · exact hlive
    obtain ⟨slot, hslot⟩ := hr.paged i lc (not_lt.1 hold) hi hattn hpaged
    rw [hslot]
    simp

end Resized

structure SameProgress (s t : KVCache τ) : Prop where
  status : t.status = s.status
  commitState : t.commitState = s.commitState
  committedTokens : t.committedTokens = s.committedTokens
  numCommittedBlocks : t.numCommittedBlocks = s.numCommittedBlocks
  ssmBlock : t.ssmBlock = s.ssmBlock
  neverResumed : t.neverResumed = s.neverResumed
  enable : t.enableSwaScratchReuse = s.enableSwaScratchReuse

theorem SameProgress.ssmLive (h : SameProgress s t) (hssm : s.SsmLive M) : t.SsmLive M := by
  unfold SsmLive
  rw [h.neverResumed, h.commitState, h.ssmBlock, h.status]
  exact hssm

/-- How `resize` ends: the lengths are set, and needed pages are missing only if they were before; or it returns `False`
with all as it was. It raises before any change, except for scratch slots or the storage manager. -/
structure ResizeOk (M : KVCacheManager) (s : KVCache τ) (c h : Nat) (success : Bool) (t : KVCache τ) : Prop where
  core : t.Core M
  same : SameProgress s t
  scratchOff : s.ScratchOff M → t.ScratchOff M
  historyLength : t.historyLength = if success then h else s.historyLength
  capacity : success = true → t.capacity = c
  asked : success = false → s.AsksSlots M c h
  present_iff : t.Present M ↔ if success then s.Covers M h c else s.Present M

theorem Resized.resizeOk (hr : Resized M s t c h) (hs : s.Resizable M c h) : ResizeOk M s c h true t where
  core := hr.core hs
  same := { hr with }
  scratchOff := hr.scratchOff
  historyLength := hr.historyLength
  capacity := fun _ => hr.capacity
  asked := nofun
  present_iff := hr.present_iff

theorem resizeBlocks_spec (hs : s.Resizable M c h) (ans : ResizeAnswers) :
    Ends (resizeBlocks M ans c h s) (ResizeOk M s c h) (fun _ _ => s.ResizeRaises M ans c h) := by
  apply (resizeBlocks_ends hs ans).mono _ fun _ _ herror => herror
  intro success t hend
  cases success with
  | true => exact Resized.resizeOk hend hs
  | false =>
    obtain ⟨⟨⟨pages, scratch, rfl, hsame⟩, hoff⟩, hasked⟩ : Restored M s t ∧ s.AsksSlots M c h := hend
    exact
      { core := (hs.core.withPages hsame.exists_of_some).scratchSlots scratch
        same := ⟨rfl, rfl, rfl, rfl, rfl, rfl, rfl⟩
        scratchOff := hoff
        historyLength := rfl
        capacity := nofun
        asked := fun _ => hasked
        present_iff := by
          show (∀ i lc, i < (s.withPages pages).blocks.length → _ → _ → _ → (s.withPages pages).page i lc ≠ none) ↔ s.Present M
          rw [length_blocks_withPages]
          refine forall₂_congr fun i lc => imp_congr_right fun hi => imp_congr_right fun _ => imp_congr_right fun _ =>
            imp_congr_right fun _ => not_congr ?_
          rw [page_withPages hi]
          exact hsame.eq_none_iff }

theorem resized_of_shortcut (hcore : s.Core M) (hsame : divUp c M.tokensPerBlock = divUp s.capacity M.tokensPerBlock)
    (hall : ∀ lc ∈ M.lifeCycleIds, M.isWindowed lc = true → M.staleRange lc h = M.staleRange lc s.historyLength) :
    Resized M s { s with capacity := c, historyLength := h } c h :=
  { status := rfl, commitState := rfl, committedTokens := rfl, numCommittedBlocks := rfl, ssmBlock := rfl
    neverResumed := rfl, enable := rfl, capacity := rfl, historyLength := rfl
    tabled := hcore.tabled
    length_blocks := hcore.length_blocks.trans hsame.symm
    isCommitted := fun _ _ => rfl
    kept := fun _ _ _ _ _ => rfl
    stale := fun i lc _ hattn hin hout => by
      exfalso
      by_cases hwindowed : M.isWindowed lc = true
      · exact hout (hall lc (M.lt_size_of_isAttention hattn) hwindowed ▸ hin)
      · exact M.not_mem_staleRange_of_not_isWindowed hattn (by simpa using hwindowed) hin
    paged := fun i lc hge hlt => absurd hlt hge.not_gt
    unpaged := fun i lc hge _ => page_eq_none hge
    scratchOff := fun hoff => hoff }

theorem resizeChecked_spec (hs : s.Resizable M c h) (ans : ResizeAnswers) :
    Ends (resizeChecked M ans c h s) (ResizeOk M s c h) (fun _ _ => s.ResizeRaises M ans c h) := by
  rw [resizeChecked, get_bind_apply]
  cases henable : s.enableSwaScratchReuse with
  | true => exact resizeBlocks_spec hs ans
  | false =>
    simp only [Bool.false_eq_true, if_false]
    by_cases hsame : divUp c M.tokensPerBlock = divUp s.capacity M.tokensPerBlock
    · have hcapacity : shortcutSetCapacity M c s = .ok true { s with capacity := c } := if_pos hsame
      by_cases hall : (M.lifeCycleIds.all fun lc =>
          !M.isWindowed lc || decide (M.staleRange lc h = M.staleRange lc s.historyLength)) = true
      · have hdone : shortcuts M c h s = .ok true { s with capacity := c, historyLength := h } := by
          rw [shortcuts, bind_ok hcapacity]
          exact if_pos hall
        have hr : Resized M s { s with capacity := c, historyLength := h } c h := by
          apply resized_of_shortcut hs.core hsame
          intro lc hlc hwindowed
          have hthis := all_eq_true.1 hall lc hlc
          rw [hwindowed] at hthis
          simpa using hthis
        rw [bind_ok hdone]
        exact hr.resizeOk hs
      · have hdone : shortcuts M c h s = .ok false { s with capacity := c } := by
          rw [shortcuts, bind_ok hcapacity]
          exact if_neg hall
        rw [bind_ok hdone]
        have hspec := resizeBlocks_spec (s := { s with capacity := c }) ⟨{ hs.core with
            history_le := hs.history.trans hs.capacity
            length_blocks := hs.core.length_blocks.trans hsame.symm
            capacity_of_never := fun hnever => nomatch (hs.core.resumed hs.active).symm.trans hnever },
          hs.active, hs.history, hs.capacity, fun _ => hs.capacity⟩ ans
        have hasks : AsksSlots M { s with capacity := c } c h → s.AsksSlots M c h := by
          rintro ⟨lc, hlc, hpos⟩
          refine ⟨lc, hlc, ?_⟩
          rw [← hsame]
          exact hpos
        apply hspec.mono _ fun _ _ herror => herror.imp_right fun hfails => ⟨hasks hfails.1, hfails.2⟩
        rintro success t hok
        have hpresent : Present M { s with capacity := c } ↔ s.Present M := by
          have hout : ∀ u : KVCache τ, u.enableSwaScratchReuse = false → ∀ i lc, i ∉ u.scratchRange M lc :=
            fun u hu i lc => not_mem_scratchRangeAt hu
          constructor
          · exact fun hp i lc hi hattn hlive _ => hp i lc hi hattn hlive (hout { s with capacity := c } henable i lc)
          · exact fun hp i lc hi hattn hlive _ => hp i lc hi hattn hlive (hout _ henable i lc)
        exact { hok with
            same := { hok.same with }
            asked := fun hfalse => hasks (hok.asked hfalse)
            present_iff := by
              rw [hok.present_iff]
              cases success with
              | true => exact .rfl
              | false => exact hpresent }
    · have hcapacity : shortcutSetCapacity M c s = .ok false s := if_neg hsame
      have hdone : shortcuts M c h s = .ok false s := by
        rw [shortcuts, bind_ok hcapacity]
        rfl
      rw [bind_ok hdone]
      exact resizeBlocks_spec hs ans

structure ResizeAccepts (M : KVCacheManager) (s : KVCache τ) (c h : Nat) : Prop where
  active : s.status = .active
  history : s.historyLength ≤ h
  capacity : h ≤ c
  scratch : s.enableSwaScratchReuse = true → c ≠ s.capacity → s.capacity - M.maxRewindLen ≤ h ∧ h ≤ s.capacity

/-- How `resize` ends for the history and the capacity it is asked for. -/
theorem resize_spec (hcore : s.Core M) (ans : ResizeAnswers) {newCapacity newHistory : Option Nat}
    (hc : newCapacity.getD s.capacity = c) (hh : newHistory.getD s.historyLength = h) :
    Ends (resize M ans newCapacity newHistory s) (fun success t => s.ResizeAccepts M c h ∧ ResizeOk M s c h success t)
      (fun _ t => (t = s ∧ ¬ s.ResizeAccepts M c h) ∨ (s.ResizeAccepts M c h ∧ s.ResizeRaises M ans c h)) := by
  subst hc hh
  apply Ends.check (fun hnot => .inl ⟨rfl, fun haccepts => of_decide_eq_false hnot haccepts.active⟩)
  intro hactive
  apply Ends.check (fun hnot => absurd hcore.length_blocks.symm (of_decide_eq_false hnot))
  intro _
  apply Ends.check (fun hnot => .inl ⟨rfl, fun haccepts => of_decide_eq_false hnot haccepts.history⟩)
  intro hh
  apply Ends.check (fun hnot => .inl ⟨rfl, fun haccepts => of_decide_eq_false hnot haccepts.capacity⟩)
  intro hle
  have hactive : s.status = .active := of_decide_eq_true hactive
  have hh := of_decide_eq_true hh
  have hle := of_decide_eq_true hle
  by_cases hguard : s.enableSwaScratchReuse = true ∧ newCapacity.getD s.capacity ≠ s.capacity
  · rw [onlyWhen_of (decide_eq_true hguard)]
    apply Ends.check fun hnot => .inl ⟨rfl, fun haccepts =>
      of_decide_eq_false hnot (haccepts.scratch hguard.1 hguard.2)⟩
    intro hrange
    have hrange := of_decide_eq_true hrange
    have haccepts : s.ResizeAccepts M _ _ := ⟨hactive, hh, hle, fun _ _ => hrange⟩
    apply (resizeChecked_spec ⟨hcore, hactive, hh, hle, fun _ => hrange.2⟩ ans).mono
    · exact fun success t hok => ⟨haccepts, hok⟩
    · exact fun _ _ herror => .inr ⟨haccepts, herror⟩
  · rw [onlyWhen_of_not (decide_eq_false hguard)]
    have hscratch : s.enableSwaScratchReuse = true → newHistory.getD s.historyLength ≤ s.capacity :=
      fun henable => not_lt.1 fun hlt => hguard ⟨henable, fun heq => hlt.not_ge (heq ▸ hle)⟩
    have haccepts : s.ResizeAccepts M _ _ := ⟨hactive, hh, hle, fun henable hne => absurd ⟨henable, hne⟩ hguard⟩
    apply (resizeChecked_spec ⟨hcore, hactive, hh, hle, hscratch⟩ ans).mono
    · exact fun success t hok => ⟨haccepts, hok⟩
    · exact fun _ _ herror => .inr ⟨haccepts, herror⟩

theorem not_asksSlots (henable : s.enableSwaScratchReuse = false) (hle : h ≤ s.capacity) : ¬ s.AsksSlots M s.capacity h := by
  rintro ⟨lc, -, hpos⟩
  have hnew : s.numNewSlots M (divUp s.capacity M.tokensPerBlock) (divUp s.capacity M.tokensPerBlock) h s.capacity lc =
      0 := by
    rw [numNewSlots_eq le_rfl (divUp_mono hle), Nat.sub_self, HalfOpenRange.countOutside_eq, Nat.zero_sub, ite_self]
  rw [deltaScratchSlots, neededScratchSlots_eq_zero henable] at hpos
  omega

end TrtLlm.KvCache.KVCache
