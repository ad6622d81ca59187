import TrtLlm.KvCache.Sequence.Commit

/-!
# Suspending and resuming

`suspend` unlocks the pages in use and `resume` locks them again. Neither changes which pages there are. The first
`resume` of a cache that was created from a match also replaces the pages of a partly matched block by private ones.
-/

namespace TrtLlm.KvCache.KVCache

open List Function BlockPage

variable {τ : Type} {M : KVCacheManager} {s t : KVCache τ} {n i k ordinal : Nat} {lc : LifeCycleId}
  {scratch : LifeCycleId → List SlotId}

theorem divUp_of_mod_eq_zero (hpos : 0 < k) (hmod : n % k = 0) : divUp n k = n / k := by
  have hdiv := Nat.div_add_mod n k
  apply Nat.div_eq_of_lt_le
  · rw [mul_comm]
    omega
  · rw [Nat.succ_mul, mul_comm]
    omega

theorem divUp_of_mod_ne_zero (hpos : 0 < k) (hmod : n % k ≠ 0) : divUp n k = n / k + 1 := by
  have hdiv := Nat.div_add_mod n k
  have hlt := Nat.mod_lt n hpos
  apply Nat.div_eq_of_lt_le
  · rw [Nat.succ_mul, mul_comm]
    omega
  · rw [Nat.succ_mul, Nat.succ_mul, mul_comm]
    omega

theorem mem_liveEntries (hcore : s.Core M) :
    (i, lc) ∈ s.liveEntries M ↔ M.isAttention lc = true ∧ i < s.blocks.length ∧ i ∉ M.staleRange lc s.historyLength := by
  have hstop : M.isAttention lc = true → (M.staleRange lc s.historyLength).stop ≤ s.blocks.length := by
    intro hattn
    rw [hcore.length_blocks]
    exact (M.staleRange_stop_le hattn).trans (divUp_mono hcore.history_le)
  unfold liveEntries liveOrdinals
  simp only [mem_flatMap, mem_map, mem_append, mem_range, mem_range'_1, Prod.mk.injEq, HalfOpenRange.mem_iff]
  constructor
  · rintro ⟨l, hl, j, hj, rfl, rfl⟩
    have hattn := M.mem_attentionIds.1 hl
    have hle := hstop hattn
    have hbeg := M.staleRange_beg_le_stop (h := s.historyLength) hattn
    exact ⟨hattn, by omega, by omega⟩
  · rintro ⟨hattn, hlen, hlive⟩
    exact ⟨lc, M.mem_attentionIds.2 hattn, i, by omega, rfl, rfl⟩

theorem nodup_liveEntries : (s.liveEntries M).Nodup := by
  apply nodup_entries (M.nodup_lifeCycleIds.filter _)
  intro lc hlc
  have hbeg := M.staleRange_beg_le_stop (h := s.historyLength) (M.mem_attentionIds.1 hlc)
  apply nodup_append.2
  refine ⟨nodup_range, nodup_range' .., ?_⟩
  intro a ha b hb
  rw [mem_range] at ha
  rw [mem_range'_1] at hb
  omega

def pagedEntries (M : KVCacheManager) (s : KVCache τ) : List (Nat × LifeCycleId) :=
  (s.liveEntries M).filter fun entry => decide (entry.1 ∉ s.scratchRange M entry.2)

/-- A scratch block that is in use has no page, and every other block in use has one. -/
def Exact (M : KVCacheManager) (s : KVCache τ) : Prop :=
  ∀ i lc, i < s.blocks.length → M.isAttention lc = true → i ∉ M.staleRange lc s.historyLength →
    (i ∈ s.scratchRange M lc ↔ s.page i lc = none)

theorem activePages_cases (hcore : s.Core M) :
    (activePages M s = .ok (s.pagedEntries M) s ∧ s.Exact M) ∨ (activePages M s = .error (.assertion "") s ∧ ¬ s.Exact M) := by
  rw [activePages, get_bind_apply]
  cases hall : (s.liveEntries M).all fun entry =>
    decide (entry.1 ∈ s.scratchRange M entry.2) == (s.page entry.1 entry.2).isNone with
  | true =>
    left
    refine ⟨rfl, ?_⟩
    intro i lc hi hattn hlive
    have hentry := all_eq_true.1 hall (i, lc) ((mem_liveEntries hcore).2 ⟨hattn, hi, hlive⟩)
    rw [beq_iff_eq] at hentry
    rw [← Option.isNone_iff_eq_none, ← hentry, decide_eq_true_iff]
  | false =>
    right
    refine ⟨rfl, ?_⟩
    intro hexact
    obtain ⟨⟨i, lc⟩, hentry, hne⟩ := all_eq_false.1 hall
    obtain ⟨hattn, hi, hlive⟩ := (mem_liveEntries hcore).1 hentry
    apply hne
    rw [beq_iff_eq, Bool.eq_iff_iff, decide_eq_true_iff, Option.isNone_iff_eq_none]
    exact hexact i lc hi hattn hlive

theorem mem_pagedEntries (hcore : s.Core M) (hexact : s.Exact M) :
    (i, lc) ∈ s.pagedEntries M ↔ i ∉ M.staleRange lc s.historyLength ∧ s.page i lc ≠ none := by
  unfold pagedEntries
  rw [mem_filter, mem_liveEntries hcore, decide_eq_true_iff]
  constructor
  · rintro ⟨⟨hattn, hi, hlive⟩, hout⟩
    exact ⟨hlive, fun hnone => hout ((hexact i lc hi hattn hlive).2 hnone)⟩
  rintro ⟨hlive, hpage⟩
  obtain ⟨p, hp⟩ := Option.ne_none_iff_exists'.1 hpage
  have hattn := hcore.attention i lc p hp
  have hi := lt_length_of_page hp
  exact ⟨⟨hattn, hi, hlive⟩, fun hin => hpage ((hexact i lc hi hattn hlive).1 hin)⟩

theorem nodup_pagedEntries : (s.pagedEntries M).Nodup := nodup_liveEntries.filter _

/-- `suspend` and `resume` keep all pages and lengths. -/
structure SamePages (M : KVCacheManager) (s t : KVCache τ) : Prop where
  capacity : t.capacity = s.capacity
  historyLength : t.historyLength = s.historyLength
  enable : t.enableSwaScratchReuse = s.enableSwaScratchReuse
  length_blocks : t.blocks.length = s.blocks.length
  page_eq_none_iff : ∀ i lc, t.page i lc = none ↔ s.page i lc = none

theorem SamePages.stayed (hcore : s.Core M) (h : SamePages M s t) (hsound : t.Sound M) : Stayed M s t := { h with
    sound := hsound
    history_le := h.historyLength.ge
    present_iff := by
      rw [h.historyLength, h.capacity, covers_self_iff hcore]
      unfold Present scratchRange scratchRangeAt
      rw [h.length_blocks, h.historyLength, h.capacity, h.enable]
      apply forall₂_congr
      intro i lc
      rw [ne_eq, h.page_eq_none_iff] }

theorem suspendPages_eq (hcore : s.Core M) (hexact : s.Exact M) (hactive : s.status = .active) :
    (s.pagedEntries M).forM suspendPage s = .ok ⟨⟩ (s.withPages fun i lc => (s.page i lc).map .holder) := by
  refine forM_entries _ _ nodup_pagedEntries hcore.tabled (fun i lc hentry => ?_) fun i lc hentry t f ht hpage => ?_
  · cases hp : s.page i lc with
    | none => rfl
    | some p =>
      -- a page that is not visited is stale, so it is not locked
      have hstale : i ∈ M.staleRange lc s.historyLength := by
        by_contra hlive
        exact hentry ((mem_pagedEntries hcore hexact).2 ⟨hlive, by rw [hp]; exact Option.some_ne_none p⟩)
      have hlock := hcore.unlocked i lc p hp fun _ => hstale
      exact congrArg some (holder_of_not_isLock hlock)
  · obtain ⟨hlive, hne⟩ := (mem_pagedEntries hcore hexact).1 hentry
    obtain ⟨p, hp⟩ := Option.ne_none_iff_exists'.1 hne
    rw [suspendPage, get_bind_apply, hpage, hp]
    dsimp only
    rw [bind_ok (assertCache_of (hcore.locked hactive i lc p hp hlive)), assignPage_eq (ht ▸ tabled_withPages) rfl]
    rfl

theorem suspend_spec (hsound : s.Sound M) : Ends (suspend M s) (fun _ t => Stayed M s t) (fun _ t => t = s) := by
  have hcore := hsound.core
  apply Ends.check (fun _ => rfl)
  intro hactive
  have hactive := of_decide_eq_true hactive
  apply Ends.check (fun _ => rfl)
  intro hsanity
  rcases activePages_cases hcore with ⟨hrun, hexact⟩ | ⟨hrun, -⟩
  · have hloop := suspendPages_eq hcore hexact hactive
    set pages := fun i lc => (s.page i lc).map holder
    have hssm : (!M.hasSsm || s.ssmBlock.all isLock) = true := by
      unfold checkSanity at hsanity
      rw [hcore.resumed hactive] at hsanity
      simp only [Bool.and_eq_true, Bool.or_eq_true] at hsanity ⊢
      apply hsanity.2.imp_right
      intro hall
      cases hblock : s.ssmBlock with
      | none => rfl
      | some p =>
        rw [hblock] at hall
        simp at hall ⊢
        exact hall.1
    rw [bind_ok hrun, bind_ok hloop, bind_ok (assertCache_of hssm)]
    show Stayed M s { s.withPages pages with
      ssmBlock := s.ssmBlock.map .holder, scratchSlots := fun _ => [], status := .suspended }
    set t : KVCache τ := { s.withPages pages with
      ssmBlock := s.ssmBlock.map .holder, scratchSlots := fun _ => [], status := .suspended }
    have hnone : ∀ i lc, t.page i lc = none ↔ s.page i lc = none := fun i lc =>
      page_withPages_eq_none_iff Option.map_eq_none_iff
    have hcoret : t.Core M := by
      refine hcore.rewrite _ _ nofun (fun _ => rfl) fun hq => ?_
      obtain ⟨p, hp, rfl⟩ := Option.map_eq_some_iff.1 hq
      exact ⟨p, hp, rfl, nofun, fun _ => rfl⟩
    refine SamePages.stayed hcore ⟨rfl, rfl, rfl, length_blocks_withPages, hnone⟩
      ⟨hcoret, hsound.committed_le, ?_, fun _ _ _ => rfl, ?_⟩
    · intro hresumed hallowed hhas
      obtain ⟨p, hp, hkind, -⟩ := hsound.ssmLive hresumed hallowed hhas
      exact ⟨p.holder, by rw [show t.ssmBlock = s.ssmBlock.map .holder from rfl, hp]; rfl, hkind, nofun, nofun⟩
    · exact fun hnever => nomatch (hcore.resumed hactive).symm.trans hnever
  · rw [bind_error hrun]
    rfl

theorem isLock_eq_false_of_suspended (hcore : s.Core M) (hsuspended : s.status = .suspended)
    {p : BlockPage} (hp : s.page i lc = some p) : p.isLock = false :=
  hcore.unlocked i lc p hp fun hactive => nomatch hsuspended.symm.trans hactive

structure LockedPages (M : KVCacheManager) (s : KVCache τ) (pages : Nat → LifeCycleId → Option BlockPage) : Prop where
  eq_none_iff : ∀ i lc, pages i lc = none ↔ s.page i lc = none
  live : ∀ i lc p, s.page i lc = some p → i ∉ M.staleRange lc s.historyLength → ∃ slot, pages i lc = some ⟨p.committed, some slot⟩
  stale : ∀ i lc, i ∈ M.staleRange lc s.historyLength → pages i lc = s.page i lc

theorem resumePages_eq (hcore : s.Core M) (hexact : s.Exact M) (hsuspended : s.status = .suspended)
    (slotOf : Option Nat → LifeCycleId → SlotId) :
    ∃ pages, (s.pagedEntries M).forM (resumePage slotOf) s = .ok ⟨⟩ (s.withPages pages) ∧ LockedPages M s pages := by
  refine ⟨fun i lc => if i ∈ M.staleRange lc s.historyLength then s.page i lc else
    (s.page i lc).map fun p => ⟨p.committed, some (slotOf i lc)⟩, ?_, fun i lc => ?_, fun i lc p hp hlive => ?_,
    fun i lc hstale => if_pos hstale⟩
  · refine forM_entries _ _ nodup_pagedEntries hcore.tabled (fun i lc hentry => ?_) fun i lc hentry t f ht hpage => ?_
    · split
      · rfl
      rename_i hlive
      have hnone : s.page i lc = none := by
        by_contra hne
        exact hentry ((mem_pagedEntries hcore hexact).2 ⟨hlive, hne⟩)
      rw [hnone]
      rfl
    · obtain ⟨hlive, hne⟩ := (mem_pagedEntries hcore hexact).1 hentry
      obtain ⟨p, hp⟩ := Option.ne_none_iff_exists'.1 hne
      subst ht
      have hunlocked : ((s.withPages f).page i lc).any isLock = false := by
        rw [hpage, hp]
        exact isLock_eq_false_of_suspended hcore hsuspended hp
      rw [resumePage, get_bind_apply, if_neg hlive]
      rw [hpage, hp]
      dsimp only
      rw [lockPage_eq tabled_withPages (by simpa using lt_length_of_page hp) hunlocked]
      rfl
  · split
    · rfl
    · rw [Option.map_eq_none_iff]
  · rw [if_neg hlive, hp]
    exact ⟨_, rfl⟩

/-- What the deferred copies leave behind: private pages in the last block, if it was only partly matched. -/
structure Copied (M : KVCacheManager) (s t : KVCache τ) : Prop where
  same : t = { s with blocks := t.blocks, basePageIndices := t.basePageIndices, ssmBlock := t.ssmBlock }
  tabled : t.Tabled
  length_blocks : t.blocks.length = s.blocks.length
  page_eq_none_iff : ∀ i lc, t.page i lc = none ↔ s.page i lc = none
  page_cases : ∀ i lc p, t.page i lc = some p → (s.page i lc = some p ∧ t.isCommitted i = s.isCommitted i) ∨
    (p.committed = false ∧ p.isLock = true ∧ t.isCommitted i = false ∧ i = s.numCommittedTokens / M.tokensPerBlock)
  isCommitted : ∀ i, t.isCommitted i = true → s.isCommitted i = true
  uncommitted : s.hasPartial M = true → t.isCommitted (s.numCommittedTokens / M.tokensPerBlock) = false
  ssmBlock : M.hasSsm = true → t.HoldsSsm

structure CopyReady (M : KVCacheManager) (s : KVCache τ) : Prop where
  last : s.hasPartial M = true → ∀ lc, M.isAttention lc = true →
    (s.page ((s.numCommittedTokens - 1) / M.tokensPerBlock) lc).any isLock = true
  ssmBlock : M.hasSsm = true → s.numCommittedTokens = 0 ∨ s.ssmBlock.any isLock = true

theorem mod_ne_zero_of_hasPartial (h : s.hasPartial M = true) : s.numCommittedTokens % M.tokensPerBlock ≠ 0 := by
  unfold hasPartial at h
  rw [Bool.and_eq_true, decide_eq_true_iff] at h
  exact h.2

theorem Core.lt_length_of_partial (hcore : s.Core M) (hnever : s.neverResumed = true)
    (hmod : s.numCommittedTokens % M.tokensPerBlock ≠ 0) :
    s.numCommittedTokens / M.tokensPerBlock < s.blocks.length := by
  rw [hcore.length_blocks, hcore.capacity_of_never hnever, divUp_of_mod_ne_zero M.tokensPerBlock_pos hmod]
  exact Nat.lt_succ_self _

theorem sub_one_div_eq (hmod : n % M.tokensPerBlock ≠ 0) : (n - 1) / M.tokensPerBlock = n / M.tokensPerBlock := by
  have hle : (n - 1) / M.tokensPerBlock ≤ n / M.tokensPerBlock := Nat.div_le_div_right (Nat.sub_le n 1)
  by_contra hne
  exact hmod (mod_eq_zero_of_div_lt (by omega))

theorem copyPartial_eq (htab : s.Tabled) (hlen : ordinal < s.blocks.length) (slotOf : LifeCycleId → SlotId)
    (hattention : ∀ lc, s.page ordinal lc ≠ none ↔ M.isAttention lc = true) :
    (M.lifeCycleIds.filter fun lc => !M.isSsm lc).forM (replaceByCopy ordinal slotOf) s =
      .ok ⟨⟩ (s.withPages (update s.page ordinal fun lc =>
        (s.page ordinal lc).map fun _ => ⟨false, some (slotOf lc)⟩)) := by
  refine forM_row ordinal _ _ (M.nodup_lifeCycleIds.filter _) htab (fun lc hlc => ?_) fun lc hlc t f ht _ => ?_
  · have hnone : s.page ordinal lc = none := by
      by_contra hne
      exact hlc (M.mem_attentionIds.2 ((hattention lc).1 hne))
    rw [hnone]
    rfl
  · obtain ⟨p, hp⟩ := Option.ne_none_iff_exists'.1 ((hattention lc).2 (M.mem_attentionIds.1 hlc))
    subst ht
    rw [hp]
    replace hlen : ordinal < (s.withPages f).blocks.length := by simpa using hlen
    have hnone : (((s.withPages f).withPages (put (s.withPages f).page ordinal lc none)).page ordinal lc).any isLock = false := by
      rw [page_withPages hlen, put_self]
      rfl
    rw [replaceByCopy, bind_ok (assignPage_eq tabled_withPages rfl), lockPage_eq tabled_withPages (by simpa using hlen) hnone,
      withPages_put_withPages, put_put]
    rfl

theorem deferredCopies_spec (htab : s.Tabled) (hattention : ∀ i lc, s.page i lc ≠ none → M.isAttention lc = true)
    (hlen : s.hasPartial M = true → s.numCommittedTokens / M.tokensPerBlock < s.blocks.length)
    (slotOf : LifeCycleId → SlotId) :
    Ends (deferredCopies M slotOf s) (fun _ t => Copied M s t) (fun _ _ => ¬ CopyReady M s) := by
  apply Ends.checkWhen
  · intro hpart hnot hready
    obtain ⟨lc, hlc, hpage⟩ := all_eq_false.1 hnot
    exact hpage (hready.last hpart lc (M.mem_attentionIds.1 hlc))
  intro hlast
  apply Ends.checkWhen
  · intro hhas hnot hready
    rcases hready.ssmBlock hhas with hzero | hlock
    · rw [decide_eq_true hzero] at hnot
      cases hnot
    · rw [hlock, Bool.or_true] at hnot
      cases hnot
  intro _
  -- the SSM state comes last and touches nothing else
  have hssm : ∀ u : KVCache τ, (∀ ssm, (M.hasSsm = true → HoldsSsm { u with ssmBlock := ssm }) →
      Copied M s { u with ssmBlock := ssm }) →
      Ends (onlyWhen M.hasSsm (modify fun s =>
          { s with ssmBlock := some ⟨false, some (slotOf (M.lifeCycles.idxOf .ssm))⟩ }) u)
        (fun _ => Copied M s) fun _ _ => ¬ CopyReady M s := by
    intro u hcopied
    cases hhas : M.hasSsm with
    | true => exact hcopied _ fun _ => ⟨_, rfl, rfl, rfl⟩
    | false => exact hcopied u.ssmBlock fun h => nomatch hhas.symm.trans h
  cases hpart : s.hasPartial M with
  | false =>
    exact hssm s fun _ hholds => ⟨rfl, htab, rfl, fun _ _ => Iff.rfl, fun _ _ _ hp => .inl ⟨hp, rfl⟩, fun _ h => h,
      (nomatch hpart.symm.trans ·), hholds⟩
  | true =>
    have hmod := mod_ne_zero_of_hasPartial hpart
    have hpages : ∀ lc, M.isAttention lc = true → s.page (s.numCommittedTokens / M.tokensPerBlock) lc ≠ none := by
      intro lc hattn hnone
      have hlock := all_eq_true.1 (hlast hpart) lc (M.mem_attentionIds.2 hattn)
      rw [sub_one_div_eq hmod, hnone] at hlock
      cases hlock
    have hrun := copyPartial_eq htab (hlen hpart) slotOf fun lc => ⟨hattention _ lc, hpages lc⟩
    set last := s.numCommittedTokens / M.tokensPerBlock with hlastDef
    set pages := update s.page last fun lc => (s.page last lc).map fun _ => BlockPage.mk false (some (slotOf lc)) with hp'
    have hlenLast : last < (s.withPages pages).blocks.length := by simpa using hlen hpart
    have hcommitted : ∀ i, ((s.withPages pages).setTreeBlock last false).isCommitted i =
        if i = last then false else s.isCommitted i := by
      intro i
      rw [isCommitted_setTreeBlock false hlenLast, isCommitted_withPages]
    rw [sub_one_div_eq hmod, onlyWhen_of rfl]
    have hstep : ((M.lifeCycleIds.filter fun lc => !M.isSsm lc).forM (replaceByCopy last slotOf) >>= fun _ =>
        modify fun s => s.setTreeBlock last false) s = .ok ⟨⟩ ((s.withPages pages).setTreeBlock last false) :=
      bind_ok hrun
    rw [bind_ok hstep]
    refine hssm _ fun _ hholds => ⟨rfl, tabled_setTreeBlock tabled_withPages,
      length_blocks_setTreeBlock.trans length_blocks_withPages, fun i lc => ?_, fun i lc p hp => ?_, fun i hi => ?_,
      fun _ => (hcommitted last).trans (if_pos rfl), hholds⟩
    · refine (congrArg (· = none) page_setTreeBlock).to_iff.trans ?_
      apply page_withPages_eq_none_iff
      by_cases hi : i = last
      · rw [hp', hi, update_self, Option.map_eq_none_iff]
      · rw [hp', update_of_ne hi]
    · obtain ⟨-, hp⟩ := exists_of_page_withPages (page_setTreeBlock.symm.trans hp)
      by_cases hi : i = last
      · rw [hp', hi, update_self] at hp
        obtain ⟨_, -, rfl⟩ := Option.map_eq_some_iff.1 hp
        exact .inr ⟨rfl, rfl, (hcommitted i).trans (if_pos hi), hi⟩
      · rw [hp', update_of_ne hi] at hp
        exact .inl ⟨hp, (hcommitted i).trans (if_neg hi)⟩
    · have hi := (hcommitted i).symm.trans hi
      split at hi
      · cases hi
      · exact hi

structure Activated (M : KVCacheManager) (s t : KVCache τ) : Prop where
  status : t.status = .active
  capacity : t.capacity = s.capacity
  historyLength : t.historyLength = s.historyLength
  commitState : t.commitState = s.commitState
  committedTokens : t.committedTokens = s.committedTokens
  numCommittedBlocks : t.numCommittedBlocks = s.numCommittedBlocks
  neverResumed : t.neverResumed = false
  enable : t.enableSwaScratchReuse = s.enableSwaScratchReuse
  scratchSlots : t.scratchSlots = s.scratchSlots
  tabled : t.Tabled
  length_blocks : t.blocks.length = s.blocks.length
  page_eq_none_iff : ∀ i lc, t.page i lc = none ↔ s.page i lc = none
  locked : ∀ i lc p, t.page i lc = some p → i ∉ M.staleRange lc s.historyLength → p.isLock = true
  stale : ∀ i lc, i ∈ M.staleRange lc s.historyLength → t.page i lc = s.page i lc
  kind : ∀ i lc p, t.page i lc = some p → p.committed = t.isCommitted i
  isCommitted : ∀ i, t.isCommitted i = true → s.isCommitted i = true
  uncommitted : ∀ i, s.numCommittedBlocks ≤ i → t.isCommitted i = false
  ssmBlock : s.commitState = .allowed → M.hasSsm = true → ∃ p, t.ssmBlock = some p ∧ p.committed = false ∧ p.isLock = true

theorem exists_of_eq_none_iff {α : Type} {x y : Option α} {a : α} (hiff : x = none ↔ y = none) (hx : x = some a) :
    ∃ b, y = some b := by
  apply Option.ne_none_iff_exists'.1
  rw [ne_eq, ← hiff, hx]
  exact nofun

theorem Activated.core (h : Activated M s t) (hcore : s.Core M) (hsuspended : s.status = .suspended) : t.Core M where
  isOpen := by simp [h.status]
  tabled := h.tabled
  history_le := by
    rw [h.historyLength, h.capacity]
    exact hcore.history_le
  length_blocks := by
    rw [h.length_blocks, h.capacity]
    exact hcore.length_blocks
  attention := fun i lc p hp => by
    obtain ⟨q, hq⟩ := exists_of_eq_none_iff (h.page_eq_none_iff i lc) hp
    exact hcore.attention i lc q hq
  locked := fun _ i lc p hp hlive => h.locked i lc p hp (h.historyLength ▸ hlive)
  unlocked := fun i lc p hp hstale => by
    have hmem : i ∈ M.staleRange lc s.historyLength := h.historyLength ▸ hstale h.status
    rw [h.stale i lc hmem] at hp
    exact isLock_eq_false_of_suspended hcore hsuspended hp
  stale_committed := fun i lc hattn hmem hcommitted => by
    rw [h.historyLength] at hmem
    rw [h.stale i lc hmem]
    exact hcore.stale_committed i lc hattn hmem (h.isCommitted i hcommitted)
  kind := h.kind
  uncommitted := fun _ i hi => h.uncommitted i (h.numCommittedBlocks ▸ hi)
  suspended_of_never := fun hnever => nomatch h.neverResumed.symm.trans hnever
  capacity_of_never := fun hnever => nomatch h.neverResumed.symm.trans hnever
  blocks_of_never := fun hnever => nomatch h.neverResumed.symm.trans hnever
  committed_of_never := fun hnever => nomatch h.neverResumed.symm.trans hnever
  not_virtualStop := by
    rw [h.commitState]
    exact hcore.not_virtualStop

theorem Activated.stayed (h : Activated M s t) (hsound : s.Sound M) (hsuspended : s.status = .suspended) :
    Stayed M s t := by
  apply SamePages.stayed hsound.core { h with }
  refine ⟨h.core hsound.core hsuspended, ?_, ?_, ?_, ?_⟩
  · rw [numCommittedTokens, h.committedTokens, h.historyLength]
    exact hsound.committed_le
  · intro _ hallowed hhas
    obtain ⟨p, hp, hkind, hlock⟩ := h.ssmBlock (h.commitState ▸ hallowed) hhas
    exact ⟨p, hp, hkind, fun _ => h.status, fun _ => hlock⟩
  · unfold ScratchOff
    rw [h.enable, h.scratchSlots]
    exact hsound.scratchOff
  · exact fun hnever => nomatch h.neverResumed.symm.trans hnever

/-- The cache when the pages in use and the SSM page are locked. -/
def withLocks (s : KVCache τ) (pages : Nat → LifeCycleId → Option BlockPage) (slot : SlotId) : KVCache τ :=
  { s.withPages pages with ssmBlock := s.ssmBlock.map fun p => ⟨p.committed, some slot⟩ }

namespace LockedPages

variable {pages : Nat → LifeCycleId → Option BlockPage} (slot : SlotId) (hpages : LockedPages M s pages)

include hpages

theorem page_cases {i : Nat} {lc : LifeCycleId} {q : BlockPage} (hq : (s.withLocks pages slot).page i lc = some q) :
    ∃ p, s.page i lc = some p ∧ q.committed = p.committed ∧ (i ∉ M.staleRange lc s.historyLength → q.isLock = true) := by
  obtain ⟨-, hq⟩ := exists_of_page_withPages hq
  obtain ⟨p, hp⟩ := exists_of_eq_none_iff (hpages.eq_none_iff i lc) hq
  by_cases hlive : i ∉ M.staleRange lc s.historyLength
  · obtain ⟨slot, hslot⟩ := hpages.live i lc p hp hlive
    rw [hslot] at hq
    cases hq
    exact ⟨p, hp, rfl, fun _ => rfl⟩
  · rw [hpages.stale i lc (not_not.1 hlive)] at hq
    exact ⟨q, hq, rfl, fun h => absurd h hlive⟩

theorem page_eq_none_iff (i : Nat) (lc : LifeCycleId) :
    (s.withLocks pages slot).page i lc = none ↔ s.page i lc = none :=
  page_withPages_eq_none_iff (hpages.eq_none_iff i lc)

theorem page_stale {i : Nat} {lc : LifeCycleId} (hstale : i ∈ M.staleRange lc s.historyLength) :
    (s.withLocks pages slot).page i lc = s.page i lc :=
  page_withPages_of_eq (hpages.stale i lc hstale)

theorem activated (hsound : s.Sound M) (hresumed : s.neverResumed = false) :
    Activated M s { s.withLocks pages slot with neverResumed := false, status := .active } where
  status := rfl
  capacity := rfl
  historyLength := rfl
  commitState := rfl
  committedTokens := rfl
  numCommittedBlocks := rfl
  neverResumed := rfl
  enable := rfl
  scratchSlots := rfl
  tabled := tabled_withPages
  length_blocks := length_blocks_withPages
  page_eq_none_iff := hpages.page_eq_none_iff slot
  locked := fun i lc q hq hlive => by
    obtain ⟨p, -, -, hlock⟩ := hpages.page_cases slot hq
    exact hlock hlive
  stale := fun i lc => hpages.page_stale slot
  kind := fun i lc q hq => by
    obtain ⟨p, hp, hkind, -⟩ := hpages.page_cases slot hq
    exact (hkind.trans (hsound.core.kind i lc p hp)).trans isCommitted_withPages.symm
  isCommitted := fun i => isCommitted_withPages.symm.trans
  uncommitted := fun i hi => isCommitted_withPages.trans (hsound.core.uncommitted hresumed i hi)
  ssmBlock := fun hallowed hhas => by
    obtain ⟨p, hp, hkind, -⟩ := hsound.ssmLive hresumed hallowed hhas
    refine ⟨⟨p.committed, some slot⟩, ?_, hkind, rfl⟩
    show s.ssmBlock.map _ = _
    rw [hp]
    rfl

theorem activated_of_copied (hcore : s.Core M) (hnever : s.neverResumed = true)
    (h : Copied M (s.withLocks pages slot) t) :
    Activated M s { t with neverResumed := false, status := .active } := by
  have hsame := h.same
  have hcapacity := hcore.capacity_of_never hnever
  have hpart : s.numCommittedTokens % M.tokensPerBlock ≠ 0 → (s.withLocks pages slot).hasPartial M = true := by
    intro hmod
    show (s.neverResumed && decide (s.numCommittedTokens % M.tokensPerBlock ≠ 0)) = true
    rw [hnever, decide_eq_true hmod]
    rfl
  have hcommitted : ∀ i, t.isCommitted i = true → s.isCommitted i = true :=
    fun i hi => isCommitted_withPages.symm.trans (h.isCommitted i hi)
  have hnone : ∀ i lc, t.page i lc = none ↔ s.page i lc = none :=
    fun i lc => (h.page_eq_none_iff i lc).trans (hpages.page_eq_none_iff slot i lc)
  exact
    { status := rfl
      capacity := by rw [hsame]; rfl
      historyLength := by rw [hsame]; rfl
      commitState := by rw [hsame]; rfl
      committedTokens := by rw [hsame]; rfl
      numCommittedBlocks := by rw [hsame]; rfl
      neverResumed := rfl
      enable := by rw [hsame]; rfl
      scratchSlots := by rw [hsame]; rfl
      tabled := h.tabled
      length_blocks := h.length_blocks.trans length_blocks_withPages
      page_eq_none_iff := hnone
      locked := fun i lc q hq hlive => by
        rcases h.page_cases i lc q hq with ⟨hq, -⟩ | ⟨-, hlock, -⟩
        · obtain ⟨p, -, -, hlock⟩ := hpages.page_cases slot hq
          exact hlock hlive
        · exact hlock
      stale := fun i lc hstale => by
        show t.page i lc = _
        cases hq : t.page i lc with
        | none => exact ((hnone i lc).1 hq).symm
        | some q =>
          rcases h.page_cases i lc q hq with ⟨hq', -⟩ | ⟨-, -, -, hlast⟩
          · rw [← hpages.page_stale slot hstale, hq']
          · obtain ⟨p, hp⟩ := exists_of_eq_none_iff (hnone i lc) hq
            exact absurd hlast (hcore.lt_of_stale hnever (hcore.attention i lc p hp) hstale).ne
      kind := fun i lc q hq => by
        rcases h.page_cases i lc q hq with ⟨hq', hsameCommitted⟩ | ⟨hkind, -, huncommitted, -⟩
        · obtain ⟨p, hp, hkind, -⟩ := hpages.page_cases slot hq'
          exact (hkind.trans (hcore.kind i lc p hp)).trans (isCommitted_withPages.symm.trans hsameCommitted.symm)
        · exact hkind.trans huncommitted.symm
      isCommitted := hcommitted
      uncommitted := fun i hi => by
        by_contra hci
        have hci : t.isCommitted i = true := Bool.not_eq_false _ ▸ hci
        have hlt : i < s.blocks.length := by
          by_contra hge
          have hfalse := isCommitted_eq_false (not_lt.1 hge)
          rw [hcommitted i hci] at hfalse
          cases hfalse
        have hblocks := hcore.blocks_of_never hnever
        rw [hcore.length_blocks, hcapacity] at hlt
        by_cases hmod : s.numCommittedTokens % M.tokensPerBlock = 0
        · rw [divUp_of_mod_eq_zero M.tokensPerBlock_pos hmod] at hlt
          omega
        rw [divUp_of_mod_ne_zero M.tokensPerBlock_pos hmod] at hlt
        have hlast : i = s.numCommittedTokens / M.tokensPerBlock := by omega
        have hfalse := h.uncommitted (hpart hmod)
        rw [← show i = (s.withLocks pages slot).numCommittedTokens / M.tokensPerBlock from hlast, hci] at hfalse
        cases hfalse
      ssmBlock := fun _ hhas => by
        obtain ⟨p, hp, hlock, hkind⟩ := h.ssmBlock hhas
        exact ⟨p, hp, hkind, hlock⟩ }

theorem copyReady (hsound : s.Sound M) (hnever : s.neverResumed = true) (henable : s.enableSwaScratchReuse = false)
    (hpresent : s.Present M) : CopyReady M (s.withLocks pages slot) where
  last := by
    intro hpart lc hattn
    have hmod := mod_ne_zero_of_hasPartial (s := s) hpart
    show ((s.withLocks pages slot).page ((s.numCommittedTokens - 1) / M.tokensPerBlock) lc).any _ = true
    rw [sub_one_div_eq hmod]
    have hlen := hsound.core.lt_length_of_partial hnever hmod
    have hlive : s.numCommittedTokens / M.tokensPerBlock ∉ M.staleRange lc s.historyLength :=
      fun hstale => lt_irrefl _ (hsound.core.lt_of_stale hnever hattn hstale)
    have hne := hpresent _ lc hlen hattn hlive (not_mem_scratchRangeAt henable)
    rw [ne_eq, ← hpages.page_eq_none_iff slot] at hne
    obtain ⟨q, hq⟩ := Option.ne_none_iff_exists'.1 hne
    obtain ⟨p, -, -, hlock⟩ := hpages.page_cases slot hq
    rw [hq]
    exact hlock hlive
  ssmBlock := by
    intro hhas
    by_cases hzero : s.numCommittedTokens = 0
    · exact .inl hzero
    obtain ⟨p, hp⟩ := Option.ne_none_iff_exists'.1 (hsound.ssmMatched hnever hhas hzero)
    right
    show (s.ssmBlock.map _).any _ = true
    rw [hp]
    rfl

end LockedPages

/-- `resume` once the slots for the copies are there. It fails half-way only if the copies lack their source. -/
theorem lockActivePages_spec (hsound : s.Sound M) (hsuspended : s.status = .suspended)
    (lockToGpu : Except StorageError (Option Nat → LifeCycleId → SlotId)) (deferred : LifeCycleId → SlotId) :
    Ends (lockActivePages M lockToGpu deferred s) (fun success t => if success then Activated M s t else t = s)
      (fun _ t => t = s ∨ s.enableSwaScratchReuse = true ∨ ¬ s.Present M) := by
  have hcore := hsound.core
  rw [lockActivePages]
  rcases activePages_cases hcore with ⟨hrun, hexact⟩ | ⟨hrun, -⟩
  · rw [bind_ok hrun]
    apply Ends.check (fun _ => .inl rfl)
    intro _
    apply Ends.check (fun _ => .inl rfl)
    intro _
    cases lockToGpu with
    | error e =>
      cases e with
      | outOfPages => rfl
      | _ => exact .inl rfl
    | ok slotOf =>
      obtain ⟨pages, hloop, hpages⟩ := resumePages_eq hcore hexact hsuspended slotOf
      dsimp only
      rw [bind_ok hloop]
      set slot := slotOf none (M.lifeCycles.idxOf .ssm)
      cases hnever : s.neverResumed with
      | false => exact hpages.activated slot hsound hnever
      | true =>
        have hcopies := deferredCopies_spec (s := s.withLocks pages slot) tabled_withPages (fun i lc hne => by
            rw [ne_eq, hpages.page_eq_none_iff] at hne
            obtain ⟨p, hp⟩ := Option.ne_none_iff_exists'.1 hne
            exact hcore.attention i lc p hp)
          (fun hpart => by
            show s.numCommittedTokens / M.tokensPerBlock < (s.withPages pages).blocks.length
            rw [length_blocks_withPages]
            exact hcore.lt_length_of_partial hnever (mod_ne_zero_of_hasPartial hpart))
          deferred
        refine hcopies.bind ?_ ?_
        · exact fun _ t => hpages.activated_of_copied slot hcore hnever
        intro _ t hnot
        right
        by_contra hboth
        rw [not_or, not_not] at hboth
        exact hnot (hpages.copyReady slot hsound hnever (by simpa using hboth.1) hboth.2)
  · rw [bind_error hrun]
    exact .inl rfl

/-- The cache with another stream flag and other scratch slots: nothing that the invariant is about. -/
def touched (s : KVCache τ) (cudaStream : Bool) (scratch : LifeCycleId → List SlotId) : KVCache τ :=
  { s with cudaStream := cudaStream, scratchSlots := scratch }

theorem Sound.touched (h : s.Sound M) (cudaStream : Bool)
    (hoff : s.enableSwaScratchReuse = false → ∀ lc ∈ M.lifeCycleIds, scratch lc = []) :
    (s.touched cudaStream scratch).Sound M where
  core := { h.core with }
  committed_le := h.committed_le
  ssmLive := h.ssmLive
  scratchOff := hoff
  ssmMatched := h.ssmMatched

theorem Stayed.touched {cudaStream : Bool} (hstayed : Stayed M (s.touched cudaStream scratch) t) : Stayed M s t :=
  { hstayed with }

theorem setStream_eq (given : Bool) : onlyWhen given (set { s with cudaStream := true }) s =
    .ok ⟨⟩ (s.touched (s.cudaStream || given) s.scratchSlots) := by
  cases given with
  | false =>
    rw [Bool.or_false]
    rfl
  | true =>
    rw [Bool.or_true]
    rfl

theorem resume_spec (hsound : s.Sound M) (answers : ResumeAnswers) :
    Ends (resume M answers s) (fun _ t => Stayed M s t)
      (fun _ t => Stayed M s t ∨ s.enableSwaScratchReuse = true ∨ ¬ s.Present M) := by
  have hstayed : ∀ {b scratch}, (s.enableSwaScratchReuse = false → ∀ lc ∈ M.lifeCycleIds, scratch lc = []) →
      Stayed M s (s.touched b scratch) := fun hoff =>
    SamePages.stayed hsound.core ⟨rfl, rfl, rfl, rfl, fun _ _ => Iff.rfl⟩ (hsound.touched _ hoff)
  apply Ends.check (fun _ => .inl (.of_sameShape hsound.core hsound (.refl s)))
  intro hsuspended
  have hsuspended := of_decide_eq_true hsuspended
  rw [bind_ok (setStream_eq answers.cudaStream)]
  set b := s.cudaStream || answers.cudaStream
  cases answers.utilizationOk with
  | false => exact hstayed hsound.scratchOff
  | true =>
    apply Ends.check (fun _ => .inl (hstayed hsound.scratchOff))
    intro _
    have htaken : s.enableSwaScratchReuse = false → ∀ lc ∈ M.lifeCycleIds,
        (s.scratchSlots lc).take (s.neededScratchSlots M lc s.historyLength s.capacity) = [] := by
      intro henable lc hlc
      rw [hsound.scratchOff henable lc hlc, take_nil]
    set taken : LifeCycleId → List SlotId := fun lc =>
      (s.scratchSlots lc).take (s.neededScratchSlots M lc s.historyLength s.capacity)
    show Ends ((assertCache _ >>= _) (s.touched b taken)) _ _
    apply Ends.check (fun _ => .inl (hstayed htaken))
    intro _
    rcases newGpuSlots_cases answers.newGpuSlots (fun lc => (s.numDeferredSlots M lc : Int) +
        s.deltaScratchSlots M lc s.historyLength s.capacity) (s.touched b taken) with
      ⟨slots, hslots, hcount⟩ | ⟨-, ⟨-, hnone⟩ | ⟨e, -, -, hraise⟩⟩
    · rw [bind_ok hslots]
      set added : LifeCycleId → List SlotId := fun lc =>
        taken lc ++ (slots lc).take ((slots lc).length - s.numDeferredSlots M lc)
      have hadded : s.enableSwaScratchReuse = false → ∀ lc ∈ M.lifeCycleIds, added lc = [] := by
        intro henable lc hlc
        have hlength := hcount lc hlc
        rw [deltaScratchSlots, neededScratchSlots_eq_zero henable] at hlength
        have hzero : (slots lc).length - s.numDeferredSlots M lc = 0 := by
          omega
        show taken lc ++ (slots lc).take _ = []
        rw [show taken lc = [] from htaken henable lc hlc, hzero]
        rfl
      have hsound' := hsound.touched b hadded
      apply (lockActivePages_spec hsound' hsuspended answers.lockToGpu _).mono
      · intro success t hend
        cases success with
        | true =>
          have hactivated : Activated M (s.touched b added) t := hend
          exact (hactivated.stayed hsound' hsuspended).touched
        | false =>
          have hsame : t = s.touched b added := hend
          rw [hsame]
          exact hstayed hadded
      · rintro - t (rfl | hbad)
        · exact .inl (hstayed hadded)
        · exact .inr hbad
    · rw [bind_ok hnone]
      exact hstayed htaken
    · rw [bind_error hraise]
      exact .inl (hstayed htaken)

theorem close_spec (hsound : s.Sound M) (answers : Nat → BlockAnswers) :
    Ends (close M answers s) (fun _ t => t.status = .closed) (fun _ t => t = s) := by
  rw [close, get_bind_apply, onlyWhen_of (decide_eq_true hsound.core.isOpen)]
  refine (stopCommitting_stayed hsound answers).bind ?_ fun _ _ herror => herror
  exact fun _ _ _ => rfl

end TrtLlm.KvCache.KVCache
