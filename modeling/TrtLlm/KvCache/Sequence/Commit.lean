import TrtLlm.KvCache.Sequence.Resize

/-!
# Committing

`_commit_block` turns the pages of one block into committed ones, its own or those of another request. It keeps the
invariant as long as the pages of the other request can be locked; all that a caller needs to know besides is that no
page in use appears or disappears (`SameShape`).
-/

namespace TrtLlm.KvCache.KVCache

open List Function Bool Option

variable {τ : Type} {M : KVCacheManager} {s t : KVCache τ}

/-- What committing does not touch: lengths, status, and which blocks in use have a page. -/
structure SameShape (M : KVCacheManager) (s t : KVCache τ) : Prop where
  status : t.status = s.status
  capacity : t.capacity = s.capacity
  historyLength : t.historyLength = s.historyLength
  committedTokens : t.committedTokens = s.committedTokens
  neverResumed : t.neverResumed = s.neverResumed
  enable : t.enableSwaScratchReuse = s.enableSwaScratchReuse
  scratchSlots : t.scratchSlots = s.scratchSlots
  length_blocks : t.blocks.length = s.blocks.length
  page_eq_none_iff : ∀ i lc, M.isAttention lc = true → i ∉ M.staleRange lc s.historyLength →
    (t.page i lc = none ↔ s.page i lc = none)

namespace SameShape

theorem refl (s : KVCache τ) : SameShape M s s := ⟨rfl, rfl, rfl, rfl, rfl, rfl, rfl, rfl, fun _ _ _ _ => .rfl⟩

theorem trans {u : KVCache τ} (hst : SameShape M s t) (htu : SameShape M t u) : SameShape M s u where
  status := htu.status.trans hst.status
  capacity := htu.capacity.trans hst.capacity
  historyLength := htu.historyLength.trans hst.historyLength
  committedTokens := htu.committedTokens.trans hst.committedTokens
  neverResumed := htu.neverResumed.trans hst.neverResumed
  enable := htu.enable.trans hst.enable
  scratchSlots := htu.scratchSlots.trans hst.scratchSlots
  length_blocks := htu.length_blocks.trans hst.length_blocks
  page_eq_none_iff := fun i lc hattn hlive =>
    (htu.page_eq_none_iff i lc hattn (hst.historyLength ▸ hlive)).trans (hst.page_eq_none_iff i lc hattn hlive)

theorem numCommittedTokens (hsame : SameShape M s t) : t.numCommittedTokens = s.numCommittedTokens :=
  congrArg length hsame.committedTokens

theorem scratchRange_eq (hsame : SameShape M s t) (lc : LifeCycleId) : t.scratchRange M lc = s.scratchRange M lc := by
  rw [scratchRange, scratchRange, scratchRangeAt, scratchRangeAt, hsame.enable, hsame.historyLength, hsame.capacity]

theorem present_iff (h : SameShape M s t) : t.Present M ↔ s.Present M := by
  unfold Present
  rw [h.length_blocks, h.historyLength]
  apply forall₂_congr
  intro i lc
  rw [h.scratchRange_eq lc]
  exact imp_congr_right fun _ => imp_congr_right fun hattn => imp_congr_right fun hlive =>
    imp_congr_right fun _ => not_congr (h.page_eq_none_iff i lc hattn hlive)

theorem scratchOff (hsame : SameShape M s t) (hoff : s.ScratchOff M) : t.ScratchOff M := by
  unfold ScratchOff
  rw [hsame.enable, hsame.scratchSlots]
  exact hoff

end SameShape

variable {pages : Nat → LifeCycleId → Option BlockPage} {ord : Nat} {lc : LifeCycleId}

/-- Stale pages may be gone, the others are the same. -/
def Released (M : KVCacheManager) (s : KVCache τ) (pages : Nat → LifeCycleId → Option BlockPage) : Prop :=
  ∀ i lc, pages i lc = s.page i lc ∨ (i ∈ M.staleRange lc s.historyLength ∧ pages i lc = none)

theorem Core.release (hcore : s.Core M) (hpages : s.Released M pages) : (s.withPages pages).Core M := by
  apply hcore.withPages
  intro i lc p hp
  rcases hpages i lc with heq | ⟨-, hnone⟩
  · exact ⟨p, heq ▸ hp, rfl, rfl⟩
  · rw [hnone] at hp
    cases hp

theorem sameShape_release (hpages : s.Released M pages) : SameShape M s (s.withPages pages) := by
  refine ⟨rfl, rfl, rfl, rfl, rfl, rfl, rfl, length_blocks_withPages, fun i lc _ hlive => ?_⟩
  rcases hpages i lc with heq | ⟨hstale, -⟩
  · rw [page_withPages_of_eq heq]
  · exact absurd hstale hlive

theorem onStopCommitting_eq (hcore : s.Core M) :
    ∃ pages, onStopCommitting M s = .ok ⟨⟩ (s.withPages pages) ∧ s.Released M pages := by
  set entries := (M.lifeCycleIds.filter fun lc => !M.isSsm lc).flatMap fun lc =>
    (range' (max (M.staleRange lc s.historyLength).beg s.numCommittedBlocks)
      ((M.staleRange lc s.historyLength).stop - max (M.staleRange lc s.historyLength).beg s.numCommittedBlocks)).map
        fun ord => (ord, lc) with hentries
  have hmem : ∀ entry ∈ entries, M.isAttention entry.2 = true ∧ entry.1 ∈ M.staleRange entry.2 s.historyLength ∧
      s.numCommittedBlocks ≤ entry.1 := by
    rintro ⟨i, lc⟩ hentry
    rw [mem_flatMap] at hentry
    obtain ⟨l, hl, hentry⟩ := hentry
    obtain ⟨ord, hordinal, heq⟩ := mem_map.1 hentry
    cases heq
    rw [mem_range'_1] at hordinal
    rw [HalfOpenRange.mem_iff]
    dsimp only
    exact ⟨M.mem_attentionIds.1 hl, by omega, by omega⟩
  have hnodup : entries.Nodup := nodup_entries (M.nodup_lifeCycleIds.filter _) fun lc _ => nodup_range' ..
  refine ⟨fun i lc => if (i, lc) ∈ entries then none else s.page i lc, ?_, fun i lc => ?_⟩
  · refine forM_entries _ releaseStaleHolder hnodup hcore.tabled (fun _ _ hmem => if_neg hmem) fun i lc hentry t f ht hpage => ?_
    subst ht
    obtain ⟨hattn, hstale, hge⟩ := hmem _ hentry
    have hdiv := M.lt_div_of_mem_staleRange hattn hstale
    have hlen : i < s.blocks.length := by
      have hmono : divUp s.historyLength M.tokensPerBlock ≤ divUp s.capacity M.tokensPerBlock := divUp_mono hcore.history_le
      have hle := div_le_divUp (x := s.historyLength) M.tokensPerBlock_pos
      rw [hcore.length_blocks]
      omega
    have huncommitted : s.isCommitted i = false := by
      cases hnever : s.neverResumed with
      | false => exact hcore.uncommitted hnever i hge
      | true =>
        have hlt := hcore.lt_of_stale hnever hattn hstale
        have hblocks := hcore.blocks_of_never hnever
        omega
    obtain ⟨block, hblock⟩ : ∃ block, (s.withPages f).blocks[i]? = some block := ⟨_, getElem?_eq_getElem (by simpa using hlen)⟩
    have htree : block.treeBlock = false := by
      have hsame : (s.withPages f).isCommitted i = false := isCommitted_withPages.trans huncommitted
      rw [isCommitted, hblock] at hsame
      exact hsame
    rw [releaseStaleHolder, get_bind_apply, if_pos hentry]
    rw [hblock]
    dsimp only
    rw [bind_ok (assertCache_of (by rw [htree]; rfl)), ← page_of_getElem? hblock, hpage]
    cases hp : s.page i lc with
    | none => exact ok_eq_withPages_put tabled_withPages (hpage.trans hp)
    | some p =>
      dsimp only
      have hlock := hcore.unlocked i lc p hp fun _ => hstale
      rw [bind_ok (assertCache_of (by rw [hlock]; rfl)), assignPage_eq tabled_withPages rfl]
  · by_cases hentry : (i, lc) ∈ entries
    · exact .inr ⟨(hmem _ hentry).2.1, if_pos hentry⟩
    · exact .inl (if_neg hentry)

def markCommitted (s : KVCache τ) (ordinal : Nat) : KVCache τ :=
  { s.setTreeBlock ordinal true with numCommittedBlocks := ordinal + 1 }

variable {lcs : List LifeCycleId} {i n : Nat}

theorem Core.page_eq_none_of_not_mem (hcore : s.Core M) (hlc : lc ∉ M.lifeCycleIds.filter fun lc => !M.isSsm lc)
    (i : Nat) : s.page i lc = none := by
  by_contra hne
  obtain ⟨p, hp⟩ := ne_none_iff_exists'.1 hne
  exact hlc (M.mem_attentionIds.2 (hcore.attention i lc p hp))

def converted (p : BlockPage) : BlockPage := ⟨true, p.lock⟩

theorem putCommittedPage_eq (htab : s.Tabled) (hlen : ord < s.blocks.length) (hnone : s.page ord lc = none)
    (old : Option BlockPage) :
    putCommittedPage ord lc old s = .ok ⟨⟩ (s.withPages (put s.page ord lc (old.map converted))) := by
  cases old with
  | none => exact ok_eq_withPages_put htab hnone
  | some p =>
    unfold putCommittedPage
    cases hlock : p.lock with
    | some slot =>
      dsimp only
      rw [hlock]
      dsimp only
      rw [lockPage_eq htab hlen (by rw [hnone]; rfl)]
      simp [converted, hlock]
    | none =>
      dsimp only
      rw [hlock]
      dsimp only
      rw [assignPage_eq htab rfl]
      simp [converted, hlock]

theorem commitToNewBlock_eq (hcore : s.Core M) (hlen : ord < s.blocks.length)
    (hkind : ∀ lc p, s.page ord lc = some p → p.committed = false) :
    commitToNewBlock M ord s =
      .ok ⟨⟩ ((s.withPages (update s.page ord fun lc => (s.page ord lc).map converted)).markCommitted ord) := by
  have hnodup := M.nodup_lifeCycleIds.filter fun lc => !M.isSsm lc
  have htake := forM_row ord (fun _ => none) (takeUncommittedPage ord) hnodup hcore.tabled
    (fun lc hlc => (hcore.page_eq_none_of_not_mem hlc ord).symm) (by
      rintro lc hlc t f rfl hpage
      rw [takeUncommittedPage, get_bind_apply, hpage]
      cases hp : s.page ord lc with
      | none => exact ok_eq_withPages_put tabled_withPages (hpage.trans hp)
      | some p =>
        dsimp only
        rw [bind_ok (assertCache_of (by rw [hkind lc p hp]; rfl)), assignPage_eq tabled_withPages rfl])
  have hgone : ∀ lc, (s.withPages (update s.page ord fun _ => none)).page ord lc = none := fun lc => by
    rw [page_withPages hlen, update_self]
  have hput := forM_row ord (fun lc => (s.page ord lc).map converted)
    (fun lc => putCommittedPage ord lc (s.page ord lc)) hnodup tabled_withPages
    (fun lc hlc => by rw [hgone, hcore.page_eq_none_of_not_mem hlc]; rfl) (by
      rintro lc hlc t f rfl hpage
      exact putCommittedPage_eq tabled_withPages (by simpa using hlen) (hpage.trans (hgone lc)) _)
  rw [withPages_update_withPages, update_idem] at hput
  rw [commitToNewBlock, get_bind_apply, bind_ok htake, bind_ok hput]
  rfl

/-- What the rebase loop makes of one page: it is unlocked if another request's page will replace it, and goes into
the tree otherwise. -/
def rebased (covers : Bool) (p : BlockPage) : BlockPage := if covers then p.holder else converted p

theorem rebasePage_eq (htab : s.Tabled) (hlen : ord < s.blocks.length) (covers : LifeCycleId → Bool)
    (lc : LifeCycleId) (hkind : ∀ p, s.page ord lc = some p → p.committed = false) :
    rebasePage ord covers lc s =
      .ok ⟨⟩ (s.withPages (put s.page ord lc ((s.page ord lc).map (rebased (covers lc))))) := by
  rw [rebasePage, get_bind_apply]
  cases hp : s.page ord lc with
  | none => exact ok_eq_withPages_put htab hp
  | some p =>
    dsimp only
    cases hcovers : covers lc with
    | true =>
      rw [if_pos rfl]
      cases hlock : p.isLock with
      | true =>
        rw [onlyWhen_of rfl, assignPage_eq htab rfl]
        rfl
      | false =>
        exact ok_eq_withPages_put htab (hp.trans (congrArg some (holder_of_not_isLock hlock).symm))
    | false =>
      have hcheck : (!p.committed) = true := by rw [hkind p hp]; rfl
      have hnone : (s.withPages (put s.page ord lc none)).page ord lc = none := by
        rw [page_withPages hlen, put_self]
      have hlen' : ord < (s.withPages (put s.page ord lc none)).blocks.length := by simpa using hlen
      rw [if_neg Bool.false_ne_true, bind_ok (assignPage_eq htab rfl), bind_ok (checkCache_of hcheck),
        putCommittedPage_eq tabled_withPages hlen' hnone, withPages_put_withPages, put_put]
      rfl

/-- A block that another request has committed: its pages are locked in place of the own ones. -/
theorem rebaseBlock_cases (hcore : s.Core M) (hlen : ord < s.blocks.length)
    (huncommitted : s.isCommitted ord = false) (ans : BlockAnswers) (covers : LifeCycleId → Bool) :
    (∃ slotOf : LifeCycleId → SlotId, rebaseBlock M ans covers ord s =
      .ok ⟨⟩ ((s.withPages (update s.page ord fun lc => (s.page ord lc).map fun p =>
        if covers lc then ⟨true, some (slotOf lc)⟩ else converted p)).markCommitted ord)) ∨
    ∃ e t, ans.lockToGpu = .error e ∧ rebaseBlock M ans covers ord s = .error (.storage e) t := by
  have hnodup := M.nodup_lifeCycleIds.filter fun lc => !M.isSsm lc
  have hloop := forM_row ord (fun lc => (s.page ord lc).map (rebased (covers lc))) (rebasePage ord covers) hnodup
    hcore.tabled (fun lc hlc => by rw [hcore.page_eq_none_of_not_mem hlc]; rfl) (by
      rintro lc hlc t f rfl hpage
      rw [rebasePage_eq tabled_withPages (by simpa using hlen) covers lc, hpage]
      exact fun p hp => (hcore.kind ord lc p (hpage ▸ hp)).trans huncommitted)
  rw [rebaseBlock, get_bind_apply, bind_ok hloop]
  cases hlock : ans.lockToGpu with
  | error e => exact .inr ⟨e, _, rfl, rfl⟩
  | ok slotOf =>
    refine .inl ⟨slotOf, ?_⟩
    set loose := update s.page ord fun lc => (s.page ord lc).map (rebased (covers lc))
    have hloose : ∀ lc, (s.withPages loose).page ord lc = (s.page ord lc).map (rebased (covers lc)) := fun lc => by
      rw [page_withPages hlen, show loose ord = _ from update_self ..]
    have hlocks := forM_row (s := s.withPages loose) ord (fun lc => (s.page ord lc).map fun p =>
        if covers lc then ⟨true, some (slotOf lc)⟩ else converted p) (fun lc => lockPage ord lc true (slotOf lc))
      (hnodup.filter fun lc => covers lc && (s.page ord lc).isSome) tabled_withPages
      (fun lc hlc => ?_) (fun lc hlc t f ht hpage => ?_)
    · rw [withPages_update_withPages, update_idem] at hlocks
      dsimp only
      rw [bind_ok hlocks]
      rfl
    · rw [hloose]
      cases hp : s.page ord lc with
      | none => rfl
      | some p =>
        have hcovers : covers lc = false := by
          by_contra hcovers
          refine hlc (mem_filter.2 ⟨M.mem_attentionIds.2 (hcore.attention ord lc p hp), ?_⟩)
          simpa [hp] using hcovers
        rw [hcovers]
        rfl
    · obtain ⟨hmem, hboth⟩ := mem_filter.1 hlc
      rw [and_eq_true] at hboth
      obtain ⟨p, hp⟩ := isSome_iff_exists.1 hboth.2
      subst ht
      rw [hp, map_some, if_pos hboth.1]
      refine lockPage_eq tabled_withPages (by simpa using hlen) ?_
      rw [hpage, hloose, hp, hboth.1]
      rfl

@[simp] theorem length_blocks_markCommitted :
    (s.markCommitted ord).blocks.length = s.blocks.length := length_blocks_setTreeBlock

@[simp] theorem page_markCommitted : (s.markCommitted ord).page i lc = s.page i lc := page_setTreeBlock

theorem isCommitted_markCommitted (hlen : ord < s.blocks.length) :
    (s.markCommitted ord).isCommitted i = (decide (i = ord) || s.isCommitted i) := by
  have hset := isCommitted_setTreeBlock (i := i) true hlen
  by_cases hi : i = ord
  · rw [decide_eq_true hi]
    exact hset.trans (if_pos hi)
  · rw [decide_eq_false hi]
    exact hset.trans (if_neg hi)

theorem tabled_markCommitted (htab : s.Tabled) : (s.markCommitted ord).Tabled := tabled_setTreeBlock htab

/-- The pages of a cache that has committed one more block: those of the block are committed ones, locked as before;
stale ones are gone. -/
structure CommittedPages (M : KVCacheManager) (s : KVCache τ) (ordinal : Nat)
    (pages : Nat → LifeCycleId → Option BlockPage) : Prop where
  other : ∀ i lc, i ≠ ordinal → pages i lc = s.page i lc
  stale : ∀ lc, M.isAttention lc = true → ordinal ∈ M.staleRange lc s.historyLength → pages ordinal lc = none
  live : ∀ lc q, pages ordinal lc = some q → q.committed = true ∧ ∃ p, s.page ordinal lc = some p ∧ q.isLock = p.isLock
  eq_none_iff : ∀ lc, ordinal ∉ M.staleRange lc s.historyLength → (pages ordinal lc = none ↔ s.page ordinal lc = none)

theorem Core.commit (h : s.Core M) (hlen : ord < s.blocks.length)
    (hordinal : ord = s.numCommittedBlocks) (hpages : CommittedPages M s ord pages) (ssm : Option BlockPage) :
    Core M { (s.withPages pages).markCommitted ord with ssmBlock := ssm } := by
  set t : KVCache τ := { (s.withPages pages).markCommitted ord with ssmBlock := ssm } with ht
  have hpage : ∀ {i lc q}, t.page i lc = some q → i < s.blocks.length ∧ pages i lc = some q := by
    intro i lc q hq
    have hq' : ((s.withPages pages).markCommitted ord).page i lc = some q := hq
    rw [page_markCommitted] at hq'
    exact exists_of_page_withPages hq'
  have hback : ∀ {i lc q}, t.page i lc = some q → ∃ p, s.page i lc = some p ∧ q.isLock = p.isLock ∧ (i ≠ ord → q = p) := by
    intro i lc q hq
    obtain ⟨-, hq'⟩ := hpage hq
    by_cases hi : i = ord
    · subst hi
      obtain ⟨-, p, hp, hlock⟩ := hpages.live lc q hq'
      exact ⟨p, hp, hlock, absurd rfl⟩
    · exact ⟨q, hpages.other i lc hi ▸ hq', rfl, fun _ => rfl⟩
  have hcommitted : ∀ i, t.isCommitted i = (decide (i = ord) || s.isCommitted i) := by
    intro i
    have hmark := isCommitted_markCommitted (s := s.withPages pages) (i := i) (by simpa using hlen)
    rw [isCommitted_withPages] at hmark
    exact hmark
  exact
    { isOpen := h.isOpen
      tabled := tabled_markCommitted tabled_withPages
      history_le := h.history_le
      length_blocks := by
        rw [length_blocks_markCommitted, length_blocks_withPages]
        exact h.length_blocks
      attention := fun i lc q hq => by
        obtain ⟨p, hp, -, -⟩ := hback hq
        exact h.attention i lc p hp
      locked := fun hactive i lc q hq hlive => by
        obtain ⟨p, hp, hlock, -⟩ := hback hq
        exact hlock.trans (h.locked hactive i lc p hp hlive)
      unlocked := fun i lc q hq hstale => by
        obtain ⟨p, hp, hlock, -⟩ := hback hq
        exact hlock.trans (h.unlocked i lc p hp hstale)
      stale_committed := fun i lc hattn hmem hci => by
        cases hq : t.page i lc with
        | none => rfl
        | some q =>
          obtain ⟨-, hq'⟩ := hpage hq
          by_cases hi : i = ord
          · subst hi
            rw [hpages.stale lc hattn hmem] at hq'
            cases hq'
          · rw [hcommitted, decide_eq_false hi] at hci
            rw [hpages.other i lc hi, h.stale_committed i lc hattn hmem hci] at hq'
            cases hq'
      kind := fun i lc q hq => by
        obtain ⟨-, hq'⟩ := hpage hq
        rw [hcommitted]
        by_cases hi : i = ord
        · subst hi
          rw [decide_eq_true rfl]
          exact (hpages.live lc q hq').1
        · rw [decide_eq_false hi]
          exact h.kind i lc q (hpages.other i lc hi ▸ hq')
      uncommitted := fun hresumed i hi => by
        have hlt : ord < i := hi
        rw [hcommitted, decide_eq_false (by omega)]
        exact h.uncommitted hresumed i (by omega)
      suspended_of_never := h.suspended_of_never
      capacity_of_never := h.capacity_of_never
      blocks_of_never := fun hnever => by
        have hblocks := h.blocks_of_never hnever
        show s.numCommittedTokens / M.tokensPerBlock ≤ ord + 1
        omega
      committed_of_never := fun hnever i hi => by
        have hi' : i < s.blocks.length := by simpa [ht] using hi
        rw [hcommitted, h.committed_of_never hnever i hi', Bool.or_true]
      not_virtualStop := h.not_virtualStop }

theorem sameShape_commit (hpages : CommittedPages M s ord pages) (ssm : Option BlockPage) :
    SameShape M s { (s.withPages pages).markCommitted ord with ssmBlock := ssm } := by
  refine ⟨rfl, rfl, rfl, rfl, rfl, rfl, rfl, length_blocks_markCommitted.trans length_blocks_withPages, fun i lc _ hlive => ?_⟩
  show ((s.withPages pages).markCommitted ord).page i lc = none ↔ _
  rw [page_markCommitted]
  apply page_withPages_eq_none_iff
  by_cases hi : i = ord
  · subst hi
    exact hpages.eq_none_iff lc hlive
  · rw [hpages.other i lc hi]

theorem withPages_markCommitted : (s.markCommitted ord).withPages pages = (s.withPages pages).markCommitted ord := by
  refine (eq_withPages rfl (fun i => ?_) fun l i => ?_).symm
  · show ((s.withPages pages).setTreeBlock ord true).blocks[i]? = (s.setTreeBlock ord true).blocks[i]?.map _
    rw [getElem?_setTreeBlock, getElem?_setTreeBlock, withPages, getElem?_mapIdx]
    cases s.blocks[i]? with
    | none => rfl
    | some block =>
      split <;> rfl
  · refine getElem?_basePageIndices_withPages.trans ?_
    show _ = (s.setTreeBlock ord true).blocks[i]?.map _
    rw [getElem?_setTreeBlock, Option.map_map]
    rfl

theorem releaseStalePages_eq (htab : s.Tabled) (hcommitted : s.isCommitted ord = true) :
    releaseStalePages M ord s = .ok ⟨⟩ (s.withPages (update s.page ord fun lc =>
      if M.isAttention lc = true ∧ ord ∈ M.staleRange lc s.historyLength then none else s.page ord lc)) := by
  rw [releaseStalePages, get_bind_apply, onlyWhen_of hcommitted]
  refine forM_row ord _ _ (M.nodup_lifeCycleIds.filter _) htab (fun lc hlc => if_neg fun hboth => hlc ?_) ?_
  · rw [mem_filter, and_eq_true, decide_eq_true_iff]
    exact ⟨M.lt_size_of_isAttention hboth.1, hboth⟩
  · rintro lc hlc t f rfl hpage
    rw [mem_filter, and_eq_true, decide_eq_true_iff] at hlc
    rw [if_pos hlc.2]
    exact assignPage_eq tabled_withPages rfl

theorem releaseStalePages_ok (htab : s.Tabled) (ord : Nat) :
    ∃ pages, releaseStalePages M ord s = .ok ⟨⟩ (s.withPages pages) ∧ s.Released M pages := by
  cases hcommitted : s.isCommitted ord with
  | false =>
    refine ⟨s.page, ?_, fun i lc => .inl rfl⟩
    rw [releaseStalePages, get_bind_apply, onlyWhen_of_not hcommitted, withPages_page htab]
    rfl
  | true =>
    refine ⟨_, releaseStalePages_eq htab hcommitted, fun i lc => ?_⟩
    by_cases hi : i = ord
    · subst hi
      rw [update_self]
      split
      · rename_i hboth
        exact .inr ⟨hboth.2, rfl⟩
      · exact .inl rfl
    · rw [update_of_ne hi]
      exact .inl rfl

def HoldsSsm (s : KVCache τ) : Prop := ∃ p, s.ssmBlock = some p ∧ p.isLock = true ∧ p.committed = false

/-- A snapshot of the live SSM state does not fail, and takes the state away only if it is moved. -/
theorem snapshotSsmToTreeBlock_eq (covered move : Bool) (hssm : s.HoldsSsm) :
    ∃ ssm, snapshotSsmToTreeBlock covered move s = .ok ⟨⟩ { s with ssmBlock := ssm } ∧ (move = false → ssm = s.ssmBlock) := by
  obtain ⟨p, hp, hlock, hkind⟩ := hssm
  unfold snapshotSsmToTreeBlock
  cases covered with
  | true => exact ⟨s.ssmBlock, rfl, fun _ => rfl⟩
  | false =>
    rw [Bool.not_false, onlyWhen_of rfl, get_bind_apply, bind_ok (assertCache_of (by rw [hp]; exact hlock))]
    cases move with
    | false => exact ⟨s.ssmBlock, rfl, fun _ => rfl⟩
    | true =>
      rw [onlyWhen_of rfl, bind_ok (assertCache_of (by rw [hp]; simp [hkind]))]
      exact ⟨none, rfl, nofun⟩

/-- A block whose pages are committed already cannot go into a new tree block. -/
theorem commitToNewBlock_raises (hkind : ∀ lc p, s.page ord lc = some p → p.committed = true)
    (hattn : M.isAttention lc = true) (hpage : s.page ord lc ≠ none) :
    commitToNewBlock M ord s = .error (.assertion "") s := by
  have hloop : ∀ lcs : List LifeCycleId, lc ∈ lcs → lcs.forM (takeUncommittedPage ord) s = .error (.assertion "") s := by
    intro lcs
    induction lcs with
    | nil => exact nofun
    | cons l lcs ih =>
      intro hmem
      cases hp : s.page ord l with
      | some p =>
        have hraise : takeUncommittedPage ord l s = .error (.assertion "") s := by
          rw [takeUncommittedPage, get_bind_apply, hp]
          apply bind_error
          rw [hkind l p hp]
          rfl
        exact bind_error hraise
      | none =>
        have hskip : takeUncommittedPage ord l s = .ok ⟨⟩ s := by
          rw [takeUncommittedPage, get_bind_apply, hp]
          rfl
        rw [forM_cons_ok hskip]
        apply ih
        rcases mem_cons.1 hmem with rfl | hmem
        · exact absurd hp hpage
        · exact hmem
  rw [commitToNewBlock, get_bind_apply]
  exact bind_error (hloop _ (M.mem_attentionIds.2 hattn))

/-- Raw effect of committing a block: before the stale pages are released, they may even be locked. -/
structure ConvertedPages (M : KVCacheManager) (s : KVCache τ) (ordinal : Nat)
    (pages : Nat → LifeCycleId → Option BlockPage) : Prop where
  other : ∀ i lc, i ≠ ordinal → pages i lc = s.page i lc
  live : ∀ lc q, pages ordinal lc = some q → q.committed = true ∧
    ∃ p, s.page ordinal lc = some p ∧ (ordinal ∉ M.staleRange lc s.historyLength → q.isLock = p.isLock)
  eq_none_iff : ∀ lc, pages ordinal lc = none ↔ s.page ordinal lc = none

structure BlockCommitted (M : KVCacheManager) (s : KVCache τ) (ordinal : Nat) (isLast : Bool) (ssm : Option BlockPage)
    (t : KVCache τ) : Prop where
  core : t.Core M
  same : SameShape M s t
  ssmBlock : t.ssmBlock = ssm
  going : t.commitState = .allowed → isLast = false ∧ t.numCommittedBlocks = ordinal + 1
  stopped : isLast = true → t.commitState = .userStop

structure Stopped (M : KVCacheManager) (s t : KVCache τ) : Prop where
  core : t.Core M
  same : SameShape M s t
  ssmBlock : t.ssmBlock = s.ssmBlock
  state : t.commitState = .userStop

theorem Stopped.blockCommitted {r : KVCache τ} (h : Stopped M s t) (hsame : SameShape M r s) (ord : Nat)
    (isLast : Bool) : BlockCommitted M r ord isLast s.ssmBlock t :=
  ⟨h.core, hsame.trans h.same, h.ssmBlock, (nomatch h.state.symm.trans ·), fun _ => h.state⟩

theorem stop_spec (hcore : s.Core M) :
    ∃ t, (set { s with commitState := .userStop } >>= fun _ => onStopCommitting M) s = .ok ⟨⟩ t ∧ Stopped M s t := by
  have hcore' : Core M { s with commitState := .userStop } := { hcore with not_virtualStop := by simp }
  obtain ⟨pages, hstop, hpages⟩ := onStopCommitting_eq hcore'
  exact ⟨_, hstop, hcore'.release hpages, { sameShape_release hpages with }, rfl, rfl⟩

theorem convertedPages_map (conv : LifeCycleId → BlockPage → BlockPage) (hkind : ∀ lc p, (conv lc p).committed = true)
    (hlock : ∀ lc p, s.page ord lc = some p → ord ∉ M.staleRange lc s.historyLength → (conv lc p).isLock = p.isLock) :
    ConvertedPages M s ord (update s.page ord fun lc => (s.page ord lc).map (conv lc)) := by
  refine ⟨fun i lc hne => by rw [update_of_ne hne], fun lc q hq => ?_, fun lc => by rw [update_self, map_eq_none_iff]⟩
  rw [update_self] at hq
  obtain ⟨p, hp, rfl⟩ := map_eq_some_iff.1 hq
  exact ⟨hkind lc p, p, hp, hlock lc p hp⟩

theorem ConvertedPages.release (hcore : s.Core M) (hlen : ord < s.blocks.length)
    (h : ConvertedPages M s ord pages) (ssm : Option BlockPage) :
    ∃ released, releaseStalePages M ord { (s.withPages pages).markCommitted ord with ssmBlock := ssm } =
        .ok ⟨⟩ { (s.withPages released).markCommitted ord with ssmBlock := ssm } ∧
      CommittedPages M s ord released := by
  set t : KVCache τ := { (s.withPages pages).markCommitted ord with ssmBlock := ssm }
  have hcommitted : t.isCommitted ord = true := by
    show ((s.withPages pages).markCommitted ord).isCommitted ord = true
    rw [isCommitted_markCommitted (by simpa using hlen), decide_eq_true rfl, Bool.true_or]
  have hpage : ∀ i lc, t.page i lc = (s.withPages pages).page i lc := fun i lc => page_markCommitted
  have hwith : ∀ released, t.withPages released = { (s.withPages released).markCommitted ord with ssmBlock := ssm } := by
    intro released
    show { ((s.withPages pages).markCommitted ord).withPages released with ssmBlock := ssm } = _
    rw [withPages_markCommitted, withPages_withPages]
  refine ⟨_, (releaseStalePages_eq (s := t) (tabled_markCommitted tabled_withPages) hcommitted).trans (congrArg _ (hwith _)),
    fun i lc hne => ?_, fun lc hattn hstale => ?_, fun lc q hq => ?_, fun lc hnot => ?_⟩
  · rw [update_of_ne hne, hpage, page_withPages_of_eq (h.other i lc hne)]
  · rw [update_self, if_pos ⟨hattn, hstale⟩]
  · rw [update_self] at hq
    split at hq
    · cases hq
    rename_i hboth
    rw [hpage, page_withPages hlen] at hq
    obtain ⟨hkind, p, hp, hlock⟩ := h.live lc q hq
    exact ⟨hkind, p, hp, hlock fun hstale => hboth ⟨hcore.attention ord lc p hp, hstale⟩⟩
  · rw [update_self, if_neg fun hboth => hnot hboth.2, hpage, page_withPages hlen]
    exact h.eq_none_iff lc

theorem finishCommit_committed (hcore : s.Core M) (hlen : ord < s.blocks.length)
    (hordinal : ord = s.numCommittedBlocks) (hpages : ConvertedPages M s ord pages) (ssm : Option BlockPage)
    (isLast : Bool) :
    ∃ t, finishCommit M ord isLast { (s.withPages pages).markCommitted ord with ssmBlock := ssm } = .ok ⟨⟩ t ∧
      BlockCommitted M s ord isLast ssm t := by
  obtain ⟨released, hrelease, hdone⟩ := hpages.release hcore hlen ssm
  have hcore' := hcore.commit hlen hordinal hdone ssm
  have hsame := sameShape_commit hdone ssm
  rw [finishCommit, bind_ok hrelease]
  cases isLast with
  | true =>
    obtain ⟨t, hrun, hstopped⟩ := stop_spec hcore'
    exact ⟨t, hrun, hstopped.blockCommitted hsame ord true⟩
  | false =>
    have hnot := decide_eq_false hcore.not_virtualStop
    exact ⟨_, congrFun (onlyWhen_of_not hnot) _, hcore', hsame, rfl, fun _ => ⟨rfl, rfl⟩, nofun⟩

theorem finishCommit_virtualStop (hcore : s.Core M) (ord : Nat) (isLast : Bool) :
    ∃ t, finishCommit M ord isLast { s with commitState := .virtualStop } = .ok ⟨⟩ t ∧
      BlockCommitted M s ord isLast s.ssmBlock t := by
  obtain ⟨pages, hrun, hpages⟩ := releaseStalePages_ok (s := { s with commitState := .virtualStop }) hcore.tabled ord
  have hsame := sameShape_release (s := s) hpages
  obtain ⟨t, hstop, hstopped⟩ := stop_spec (hcore.release hpages)
  rw [finishCommit, bind_ok hrun, get_bind_apply]
  have hvirtual : (isLast || decide ((KVCache.withPages { s with commitState := .virtualStop } pages).commitState =
      .virtualStop)) = true :=
    or_eq_true_iff.2 (.inr (decide_eq_true rfl))
  rw [onlyWhen_of hvirtual]
  exact ⟨t, hstop, { hstopped.blockCommitted (SameShape.refl _) ord isLast with same := hsame.trans hstopped.same }⟩

theorem checkPrevTreeBlock_cases (ord : Nat) :
    checkPrevTreeBlock ord s = .ok ⟨⟩ s ∨ checkPrevTreeBlock ord s = .error (.assertion "") s := by
  rw [checkPrevTreeBlock, get_bind_apply]
  cases hpos : decide (0 < ord) with
  | false => exact .inl (congrFun (onlyWhen_of_not rfl) s)
  | true =>
    cases hcommitted : s.isCommitted (ord - 1) with
    | false => exact .inr rfl
    | true => exact .inl rfl

/-- The pages of another request's full block cannot be locked. -/
def RebaseFails (M : KVCacheManager) (answers : BlockAnswers) : Prop :=
  M.allowSeqRebasing = true ∧ (∃ covers, answers.tree = .existing true covers) ∧ ∃ e, answers.lockToGpu = .error e

def SomeRebaseFails (M : KVCacheManager) (s : KVCache τ) (answers : Nat → BlockAnswers) : Prop :=
  ∃ i, i * M.tokensPerBlock + M.tokensPerBlock ≤ s.numCommittedTokens ∧ RebaseFails M (answers i)

/-- The branches of `_commit_block`. Only the rebase can fail half-way, when another request's pages cannot be locked. -/
theorem commitTreeBlock_spec (hcore : s.Core M) (hlen : ord < s.blocks.length)
    (hordinal : ord = s.numCommittedBlocks) (ans : BlockAnswers) {isFull : Bool}
    (hactive : isFull = true → s.status = .active) :
    Ends (commitTreeBlock M ans ord isFull s)
      (fun did t => (did = true ∧ ∃ pages, ConvertedPages M s ord pages ∧
          t = (s.withPages pages).markCommitted ord) ∨
        did = false ∧ t = { s with commitState := .virtualStop })
      (fun _ t => t = s ∨ (isFull = true ∧ RebaseFails M ans)) := by
  unfold commitTreeBlock
  cases htree : ans.tree with
  | raises => exact .inl rfl
  | new =>
    dsimp only
    by_cases hkind : ∀ lc p, s.page ord lc = some p → p.committed = false
    · rw [bind_ok (commitToNewBlock_eq hcore hlen hkind)]
      exact .inl ⟨rfl, _, convertedPages_map (fun _ => converted) (fun _ _ => rfl) fun _ _ _ _ => rfl, rfl⟩
    simp only [not_forall] at hkind
    obtain ⟨lc, p, hp, hnot⟩ := hkind
    have hcommitted : s.isCommitted ord = true := by
      rw [← hcore.kind ord lc p hp]
      simpa using hnot
    have hraise := commitToNewBlock_raises
      (fun lc q hq => (hcore.kind ord lc q hq).trans hcommitted) (hcore.attention ord lc p hp)
      (by rw [hp]; exact some_ne_none p)
    rw [bind_error hraise]
    exact .inl rfl
  | existing treeBlockIsFull covers =>
    dsimp only
    by_cases hrebase : (treeBlockIsFull && M.allowSeqRebasing && isFull) = true
    · rw [if_pos hrebase]
      rw [and_eq_true, and_eq_true] at hrebase
      obtain ⟨⟨htreeFull, hallow⟩, hfull⟩ := hrebase
      have hact := hactive hfull
      have huncommitted := hcore.uncommitted (hcore.resumed hact) ord hordinal.ge
      rcases rebaseBlock_cases hcore hlen huncommitted ans covers with ⟨slotOf, hrun⟩ | ⟨e, t, hlock, hrun⟩
      · rw [bind_ok hrun]
        refine .inl ⟨rfl, _, convertedPages_map _ (fun lc p => by split <;> rfl) fun lc p hp hlive => ?_, rfl⟩
        split
        · exact (hcore.locked hact ord lc p hp hlive).symm
        · rfl
      · rw [bind_error hrun]
        exact .inr ⟨hfull, hallow, ⟨covers, htreeFull ▸ htree⟩, e, hlock⟩
    · rw [if_neg hrebase]
      exact .inr ⟨rfl, rfl⟩

theorem commitBlock_spec (hcore : s.Core M) (ans : BlockAnswers) (ord : Nat) (isLast commitSsm moveSsm : Bool)
    (hactive : ord * M.tokensPerBlock + M.tokensPerBlock ≤ s.numCommittedTokens → s.status = .active)
    (hssm : commitSsm = true → s.HoldsSsm) :
    Ends (commitBlock M ans ord isLast commitSsm moveSsm s)
      (fun _ t => ∃ ssm, BlockCommitted M s ord isLast ssm t ∧ ((commitSsm && moveSsm) = false → ssm = s.ssmBlock))
      (fun _ t => t = s ∨ (ord * M.tokensPerBlock + M.tokensPerBlock ≤ s.numCommittedTokens ∧ RebaseFails M ans)) := by
  refine Ends.check (fun _ => .inl rfl) fun _ => ?_
  refine Ends.check (fun _ => .inl rfl) fun hordinal => ?_
  refine Ends.check (fun _ => .inl rfl) fun hlen => ?_
  refine Ends.check (fun _ => .inl rfl) fun _ => ?_
  rw [decide_eq_true_iff] at hordinal hlen
  rcases checkPrevTreeBlock_cases ord with hprev | hprev
  · rw [bind_ok hprev]
    refine (commitTreeBlock_spec hcore hlen hordinal ans fun hfull => hactive (of_decide_eq_true hfull)).bind ?_
      fun _ _ herror => herror.imp_right fun hfails => ⟨of_decide_eq_true hfails.1, hfails.2⟩
    rintro did t (⟨rfl, pages, hpages, rfl⟩ | ⟨rfl, rfl⟩)
    · cases commitSsm with
      | false =>
        obtain ⟨t, hrun, hdone⟩ := finishCommit_committed hcore hlen hordinal hpages s.ssmBlock isLast
        exact .of_ok hrun ⟨s.ssmBlock, hdone, fun _ => rfl⟩
      | true =>
        obtain ⟨ssm, hsnapshot, hmove⟩ := snapshotSsmToTreeBlock_eq
          (s := (s.withPages pages).markCommitted ord) ans.ssmCovered moveSsm (hssm rfl)
        obtain ⟨t, hrun, hdone⟩ := finishCommit_committed hcore hlen hordinal hpages ssm isLast
        rw [Bool.true_and, onlyWhen_of rfl, bind_ok hsnapshot]
        exact .of_ok hrun ⟨ssm, hdone, hmove⟩
    · obtain ⟨t, hrun, hdone⟩ := finishCommit_virtualStop hcore ord isLast
      exact .of_ok hrun ⟨s.ssmBlock, hdone, fun _ => rfl⟩
  · rw [bind_error hprev]
    exact .inl rfl

/-- How the calls end that only commit blocks: an SSM state that was taken away is not needed any more. -/
structure Committed (M : KVCacheManager) (s t : KVCache τ) : Prop where
  core : t.Core M
  same : SameShape M s t
  ssmBlock : t.commitState = .allowed → t.ssmBlock = s.ssmBlock

theorem Committed.refl (hcore : s.Core M) : Committed M s s := ⟨hcore, .refl s, fun _ => rfl⟩

theorem mul_div_add_gt (n : Nat) : n < n / M.tokensPerBlock * M.tokensPerBlock + M.tokensPerBlock := by
  have hmod := Nat.mod_lt n M.tokensPerBlock_pos
  have hdiv := Nat.div_add_mod' n M.tokensPerBlock
  omega

/-- `stop_committing`; it can only raise before it has changed anything. -/
theorem stopCommitting_spec (hcore : s.Core M) (ans : Nat → BlockAnswers) :
    Ends (stopCommitting M ans s)
      (fun _ t => Stopped M s t)
      (fun _ t => t = s ∧ s.numCommittedTokens % M.tokensPerBlock ≠ 0) := by
  rw [stopCommitting, get_bind_apply, bind_ok (assertCache_of (decide_eq_true hcore.isOpen))]
  cases hstate : s.commitState with
  | userStop => exact ⟨hcore, .refl s, rfl, hstate⟩
  | virtualStop => exact absurd hstate hcore.not_virtualStop
  | allowed =>
    by_cases hpart : s.numCommittedTokens % M.tokensPerBlock ≠ 0
    · rw [if_pos hpart]
      have hnotFull := mul_div_add_gt (M := M) s.numCommittedTokens
      have hspec := commitBlock_spec hcore (ans (s.numCommittedTokens / M.tokensPerBlock))
        (s.numCommittedTokens / M.tokensPerBlock) true false false
        (fun hfull => absurd hfull (by omega)) (nofun)
      apply hspec.mono
      · rintro - t ⟨ssm, hdone, hssm⟩
        exact ⟨hdone.core, hdone.same, hdone.ssmBlock.trans (hssm rfl), hdone.stopped rfl⟩
      · rintro - t (rfl | ⟨hfull, -⟩)
        · exact ⟨rfl, hpart⟩
        · omega
    · rw [if_neg hpart]
      obtain ⟨t, hrun, hstopped⟩ := stop_spec hcore
      exact .of_ok hrun hstopped

/-- The loop of `commit`. The SSM state is only taken at the end of the last block. -/
theorem commitFullBlocks_spec (ans : Nat → BlockAnswers) {ssmOrdinal : Nat} (isEnd : Bool) (ordinals : List Nat)
    (hsorted : ordinals.Pairwise (· < ·)) (hle : ∀ i ∈ ordinals, i ≤ ssmOrdinal)
    (hssmOrdinal : ssmOrdinal ∈ ordinals → n % M.tokensPerBlock = 0) (s : KVCache τ) (hcore : s.Core M)
    (hactive : s.status = .active) (hssm : M.hasSsm = true → s.HoldsSsm) :
    Ends (commitFullBlocks M ans ssmOrdinal isEnd ordinals s)
      (fun _ t => t.Core M ∧ SameShape M s t ∧ (t.ssmBlock = s.ssmBlock ∨ (isEnd = true ∧ n % M.tokensPerBlock = 0)))
      (fun _ t => Committed M s t ∨ s.SomeRebaseFails M ans) := by
  induction ordinals generalizing s with
  | nil => exact ⟨hcore, .refl s, .inl rfl⟩
  | cons ord rest ih =>
    have hblock := commitBlock_spec hcore (ans ord) ord false
        (M.commitMinSnapshot && M.hasSsm && decide (ord = ssmOrdinal)) isEnd (fun _ => hactive) (by
      intro hsnapshot
      rw [and_eq_true, and_eq_true] at hsnapshot
      exact hssm hsnapshot.1.2)
    refine hblock.bind ?_ ?_
    · rintro - t ⟨ssm, hdone, hmoved⟩
      rw [get_bind_apply]
      by_cases hmove : (M.commitMinSnapshot && M.hasSsm && decide (ord = ssmOrdinal) && isEnd) = true
      · rw [and_eq_true, and_eq_true, decide_eq_true_iff] at hmove
        obtain ⟨⟨-, rfl⟩, rfl⟩ := hmove
        have hrest : rest = [] := by
          apply eq_nil_iff_forall_not_mem.2
          intro i hi
          have hlt := (pairwise_cons.1 hsorted).1 i hi
          have hge := hle i (.tail _ hi)
          omega
        subst hrest
        have hzero := hssmOrdinal (.head _)
        unfold onlyWhen
        split
        · exact ⟨hdone.core, hdone.same, .inr ⟨rfl, hzero⟩⟩
        · exact ⟨hdone.core, hdone.same, .inr ⟨rfl, hzero⟩⟩
      · have hkept : t.ssmBlock = s.ssmBlock := hdone.ssmBlock.trans (hmoved (by simpa using hmove))
        unfold onlyWhen
        split
        · have hrest := ih (pairwise_cons.1 hsorted).2 (forall_mem_cons.1 hle).2
            (fun hmem => hssmOrdinal (.tail _ hmem)) t hdone.core (hdone.same.status.trans hactive)
            (by rw [HoldsSsm, hkept]; exact hssm)
          apply hrest.mono
          · rintro - u ⟨hcoreu, hsame, hssmu⟩
            exact ⟨hcoreu, hdone.same.trans hsame, hkept ▸ hssmu⟩
          · rintro - u (hcommitted | ⟨i, hfull, hfails⟩)
            · exact .inl ⟨hcommitted.core, hdone.same.trans hcommitted.same,
                fun hallowed => (hcommitted.ssmBlock hallowed).trans hkept⟩
            · exact .inr ⟨i, hdone.same.numCommittedTokens ▸ hfull, hfails⟩
        · exact ⟨hdone.core, hdone.same, .inl hkept⟩
    · rintro - t (rfl | hfails)
      · exact .inl (.refl hcore)
      · exact .inr ⟨ord, hfails⟩

theorem snapshotPartialBlockToTree_spec (ans : BlockAnswers) (ord : Nat) (commitSsm : Bool) :
    Ends (snapshotPartialBlockToTree ans ord commitSsm s) (fun _ t => t = s) (fun _ t => t = s) := by
  have hrest : Ends ((checkCache (decide (ord < s.blocks.length)) .indexError >>= fun _ =>
      onlyWhen commitSsm (snapshotSsmToTreeBlock ans.ssmCovered false)) s) (fun _ t => t = s) fun _ t => t = s := by
    apply Ends.check (fun _ => rfl)
    intro _
    unfold snapshotSsmToTreeBlock onlyWhen
    split
    · split
      · exact Ends.check (fun _ => rfl) fun _ => rfl
      · rfl
    · rfl
  rw [snapshotPartialBlockToTree]
  rcases checkPrevTreeBlock_cases ord with hprev | hprev
  · rw [bind_ok hprev]
    cases ans.tree with
    | raises => rfl
    | new => exact hrest
    | existing isFull covers => exact hrest
  · rw [bind_error hprev]
    rfl

theorem le_div_of_lt_div (hlt : i < n / M.tokensPerBlock) : i ≤ (n - 1) / M.tokensPerBlock := by
  have hpos := M.tokensPerBlock_pos
  have hmul := (Nat.le_div_iff_mul_le hpos).1 hlt
  rw [Nat.succ_mul] at hmul
  exact (Nat.le_div_iff_mul_le hpos).2 (by omega)

theorem mod_eq_zero_of_div_lt (hlt : (n - 1) / M.tokensPerBlock < n / M.tokensPerBlock) : n % M.tokensPerBlock = 0 := by
  by_contra hmod
  have hdiv := Nat.div_add_mod' n M.tokensPerBlock
  have hle : n / M.tokensPerBlock ≤ (n - 1) / M.tokensPerBlock := (Nat.le_div_iff_mul_le M.tokensPerBlock_pos).2 (by omega)
  omega

theorem commitBlocks_spec (hcore : s.Core M) (hactive : s.status = .active) (hssm : M.hasSsm = true → s.HoldsSsm)
    (ans : Nat → BlockAnswers) (isEnd : Bool) :
    Ends (commitBlocks M ans isEnd s) (fun _ t => Committed M s t)
      (fun _ t => Committed M s t ∨ s.SomeRebaseFails M ans) := by
  have hmem : ∀ i ∈ range' s.numCommittedBlocks
      (s.numCommittedTokens / M.tokensPerBlock - s.numCommittedBlocks), i < s.numCommittedTokens / M.tokensPerBlock := by
    intro i hi
    rw [mem_range'_1] at hi
    omega
  have hloop := commitFullBlocks_spec ans isEnd _ pairwise_lt_range'
    (fun i hi => le_div_of_lt_div (hmem i hi)) (fun hi => mod_eq_zero_of_div_lt (hmem _ hi)) s hcore hactive hssm
  refine hloop.bind ?_ fun _ _ herror => herror
  rintro - t ⟨hcoret, hsame, hmoved⟩
  rw [get_bind_apply]
  -- what is left once the partial block is dealt with
  have hstop : ∀ u : KVCache τ, u.Core M → SameShape M t u →
      (u.ssmBlock = s.ssmBlock ∨ (isEnd = true ∧ s.numCommittedTokens % M.tokensPerBlock = 0)) →
      Ends ((get >>= fun u => onlyWhen (isEnd && decide (u.commitState ≠ .userStop)) (stopCommitting M ans)) u)
        (fun _ => Committed M s) fun _ v => Committed M s v ∨ s.SomeRebaseFails M ans := by
    intro u hcoreu hsameu hmovedu
    rw [get_bind_apply]
    unfold onlyWhen
    split
    · apply (stopCommitting_spec hcoreu ans).mono
      · intro _ v hstopped
        exact ⟨hstopped.core, hsame.trans (hsameu.trans hstopped.same), (nomatch hstopped.state.symm.trans ·)⟩
      rintro - v ⟨rfl, hpart⟩
      rw [(hsame.trans hsameu).numCommittedTokens] at hpart
      rcases hmovedu with hkept | ⟨-, hzero⟩
      · exact .inl ⟨hcoreu, hsame.trans hsameu, fun _ => hkept⟩
      · exact absurd hzero hpart
    · rename_i hnot
      refine ⟨hcoreu, hsame.trans hsameu, fun hallowed => ?_⟩
      rcases hmovedu with hkept | ⟨rfl, -⟩
      · exact hkept
      · rw [hallowed] at hnot
        exact absurd rfl hnot
  unfold onlyWhen
  split
  · rename_i hpart
    rw [and_eq_true, and_eq_true, decide_eq_true_iff] at hpart
    obtain ⟨⟨-, hmod⟩, -⟩ := hpart
    have hkept : t.ssmBlock = s.ssmBlock := by
      rcases hmoved with hkept | ⟨-, hzero⟩
      · exact hkept
      · exact absurd hzero hmod
    cases isEnd with
    | true =>
      have hnotFull := mul_div_add_gt (M := M) s.numCommittedTokens
      have hblock := commitBlock_spec hcoret (ans (s.numCommittedTokens / M.tokensPerBlock))
        (s.numCommittedTokens / M.tokensPerBlock) true M.hasSsm M.hasSsm
        (fun _ => hsame.status.trans hactive) (by rw [HoldsSsm, hkept]; exact hssm)
      refine hblock.bind ?_ ?_
      · rintro - u ⟨ssm, hdone, -⟩
        rw [get_bind_apply]
        have hstate := hdone.stopped rfl
        have hskip : (true && decide (u.commitState ≠ .userStop)) = false := by rw [hstate]; rfl
        rw [hskip]
        exact ⟨hdone.core, hsame.trans hdone.same, (nomatch hstate.symm.trans ·)⟩
      · rintro - u (rfl | ⟨hfull, -⟩)
        · exact .inl ⟨hcoret, hsame, fun _ => hkept⟩
        · rw [hsame.numCommittedTokens] at hfull
          omega
    | false =>
      refine (snapshotPartialBlockToTree_spec _ _ M.hasSsm).bind ?_ ?_
      · rintro - u rfl
        exact hstop u hcoret (.refl u) (.inl hkept)
      · rintro - u rfl
        exact .inl ⟨hcoret, hsame, fun _ => hkept⟩
  · exact hstop t hcoret (.refl t) hmoved

/-- What holds of an open cache between calls, except that it may miss pages. -/
structure Sound (M : KVCacheManager) (s : KVCache τ) : Prop where
  core : s.Core M
  committed_le : s.numCommittedTokens ≤ s.historyLength
  ssmLive : s.SsmLive M
  scratchOff : s.ScratchOff M
  /-- The SSM state that goes with a matched prefix is there for the first `resume`. -/
  ssmMatched : s.neverResumed = true → M.hasSsm = true → s.numCommittedTokens ≠ 0 → s.ssmBlock ≠ none

theorem Sound.committed (hsound : s.Sound M) (hactive : s.status = .active) (hallowed : s.commitState = .allowed)
    (h : Committed M s t) : t.Sound M where
  core := h.core
  committed_le := by
    rw [h.same.numCommittedTokens, h.same.historyLength]
    exact hsound.committed_le
  ssmLive := by
    intro hresumed hstill hhas
    rw [h.ssmBlock hstill, h.same.status]
    exact hsound.ssmLive (h.same.neverResumed ▸ hresumed) hallowed hhas
  scratchOff := h.same.scratchOff hsound.scratchOff
  ssmMatched := by
    rw [h.same.neverResumed, hsound.core.resumed hactive]
    exact nofun

theorem Core.addTokens (h : s.Core M) (hactive : s.status = .active) (tokens : List τ) :
    Core M { s with committedTokens := s.committedTokens ++ tokens } :=
  { h with
    capacity_of_never := fun hnever => nomatch (h.resumed hactive).symm.trans hnever
    blocks_of_never := fun hnever => nomatch (h.resumed hactive).symm.trans hnever }

theorem covers_self_iff (hcore : s.Core M) : s.Covers M s.historyLength s.capacity ↔ s.Present M := by
  constructor
  · intro hcovers i lc hi hattn hlive hout
    exact hcovers i lc hi (hcore.length_blocks ▸ hi) hattn hlive hout
  · intro hpresent i lc hi _ hattn hlive hout
    exact hpresent i lc hi hattn hlive hout

theorem Sound.stopped (hsound : s.Sound M) (h : Stopped M s t) : t.Sound M where
  core := h.core
  committed_le := by
    rw [h.same.numCommittedTokens, h.same.historyLength]
    exact hsound.committed_le
  ssmLive := fun _ hallowed => nomatch h.state.symm.trans hallowed
  scratchOff := h.same.scratchOff hsound.scratchOff
  ssmMatched := by
    rw [h.same.neverResumed, h.ssmBlock, h.same.numCommittedTokens]
    exact hsound.ssmMatched

/-- How a call ends that may move the lengths: needed pages are missing only if the new lengths were not covered. -/
structure Moved (M : KVCacheManager) (s t : KVCache τ) : Prop where
  sound : t.Sound M
  enable : t.enableSwaScratchReuse = s.enableSwaScratchReuse
  history_le : s.historyLength ≤ t.historyLength
  present_iff : t.Present M ↔ s.Covers M t.historyLength t.capacity

structure Stayed (M : KVCacheManager) (s t : KVCache τ) : Prop extends Moved M s t where
  capacity : t.capacity = s.capacity
  historyLength : t.historyLength = s.historyLength

theorem Stayed.of_sameShape (hcore : s.Core M) (hsound : t.Sound M) (h : SameShape M s t) : Stayed M s t := { h with
    sound := hsound
    history_le := h.historyLength.ge
    present_iff := by
      rw [h.historyLength, h.capacity, covers_self_iff hcore]
      exact h.present_iff }

theorem stopCommitting_stayed (hsound : s.Sound M) (ans : Nat → BlockAnswers) :
    Ends (stopCommitting M ans s) (fun _ t => Stayed M s t) (fun _ t => t = s) := by
  apply (stopCommitting_spec hsound.core ans).mono
  · exact fun _ t h => .of_sameShape hsound.core (hsound.stopped h) h.same
  · exact fun _ _ herror => herror.1

/-- What a `commit` needs so that it does not raise half-way: the tokens fit, and the pages of other requests that
replace its own can be locked. -/
structure CommitFits (M : KVCacheManager) (s : KVCache τ) (answers : CommitAnswers) (tokens : List τ) : Prop where
  fits : s.numCommittedTokens + tokens.length ≤ s.capacity
  rebase : ∀ i, i * M.tokensPerBlock + M.tokensPerBlock ≤ s.numCommittedTokens + tokens.length → ¬ RebaseFails M (answers.block i)

theorem Ends.checkWhen {α : Type} {condition needed : Bool} {error : CacheError} {f : PUnit → CacheM τ α}
    {Q : α → KVCache τ → Prop} {E : CacheError → KVCache τ → Prop}
    (hraise : needed = true → condition = false → E error s)
    (hthen : (needed = true → condition = true) → Ends (f ⟨⟩ s) Q E) :
    Ends ((onlyWhen needed (checkCache condition error) >>= f) s) Q E := by
  cases needed with
  | false => exact hthen nofun
  | true => exact Ends.check (hraise rfl) fun hcondition => hthen fun _ => hcondition

theorem enable_of_hasScratchSlots (hoff : s.ScratchOff M) (hslots : s.hasScratchSlots M = true) :
    s.enableSwaScratchReuse = true := by
  by_contra henable
  obtain ⟨lc, hlc, hne⟩ := any_eq_true.1 hslots
  rw [hoff (by simpa using henable) lc hlc] at hne
  cases hne

/-- Without scratch reuse the assignment of `history_length` fails only for a wrong length, and changes nothing then. -/
theorem setHistoryLength_spec (hcore : s.Core M) (hoff : s.ScratchOff M) (ans : ResizeAnswers) (h : Nat) :
    Ends (setHistoryLength M ans h s)
      (fun _ t => s.ResizeAccepts M s.capacity h ∧ ResizeOk M s s.capacity h true t)
      (fun _ t => (t = s ∧ ¬ s.ResizeAccepts M s.capacity h) ∨ s.enableSwaScratchReuse = true) := by
  refine (resize_spec hcore ans (c := s.capacity) (h := h) rfl rfl).bind ?_ ?_
  · rintro success t ⟨haccepts, hok⟩
    cases success with
    | true => exact ⟨haccepts, hok⟩
    | false =>
      refine .inr ?_
      by_contra henable
      exact not_asksSlots (by simpa using henable) haccepts.capacity (hok.asked rfl)
  · rintro - t (hraised | ⟨haccepts, hslots | ⟨hasks, -⟩⟩)
    · exact .inl hraised
    · exact .inr (enable_of_hasScratchSlots hoff hslots)
    · refine .inr ?_
      by_contra henable
      exact not_asksSlots (by simpa using henable) haccepts.capacity hasks

theorem commitBlocks_moved (hsound : s.Sound M) (hactive : s.status = .active) (hallowed : s.commitState = .allowed)
    (ans : Nat → BlockAnswers) (isEnd : Bool) :
    Ends (commitBlocks M ans isEnd s) (fun _ t => t.Sound M ∧ SameShape M s t)
      (fun _ t => (t.Sound M ∧ SameShape M s t) ∨ s.SomeRebaseFails M ans) := by
  have hssm : M.hasSsm = true → s.HoldsSsm := by
    intro hhas
    obtain ⟨p, hp, hkind, hlock⟩ := hsound.ssmLive (hsound.core.resumed hactive) hallowed hhas
    exact ⟨p, hp, hlock.2 hactive, hkind⟩
  apply (commitBlocks_spec hsound.core hactive hssm ans isEnd).mono
  · exact fun _ t hdone => ⟨hsound.committed hactive hallowed hdone, hdone.same⟩
  · exact fun _ t herror => herror.imp_left fun hdone => ⟨hsound.committed hactive hallowed hdone, hdone.same⟩

/-- How `commit` ends: the history includes the `n` tokens committed by then. -/
structure CommitMoved (M : KVCacheManager) (s : KVCache τ) (n : Nat) (t : KVCache τ) : Prop extends Moved M s t where
  capacity : t.capacity = s.capacity
  historyLength : t.historyLength = max s.historyLength n

theorem CommitMoved.sameShape {u : KVCache τ} (h : CommitMoved M s n t) (hsound : u.Sound M) (hsame : SameShape M t u) :
    CommitMoved M s n u := by
  have hlength := hsame.historyLength.trans h.historyLength
  refine ⟨⟨hsound, hsame.enable.trans h.enable, hlength ▸ le_max_left .., ?_⟩, hsame.capacity.trans h.capacity, hlength⟩
  rw [hsame.historyLength, hsame.capacity, ← h.present_iff]
  exact hsame.present_iff

def addTokens (s : KVCache τ) (tokens : List τ) : KVCache τ := { s with committedTokens := s.committedTokens ++ tokens }

theorem advanceHistory_spec (h : s.Sound M) (hactive : s.status = .active) (hallowed : s.commitState = .allowed)
    (ans : CommitAnswers) (tokens : List τ) :
    Ends (onlyWhen (decide ((s.addTokens tokens).historyLength < (s.addTokens tokens).numCommittedTokens))
        (setHistoryLength M ans.resize (s.addTokens tokens).numCommittedTokens) (s.addTokens tokens))
      (fun _ t => CommitMoved M s (s.addTokens tokens).numCommittedTokens t ∧ t.status = .active ∧
        t.commitState = .allowed ∧ t.numCommittedTokens = (s.addTokens tokens).numCommittedTokens)
      (fun _ _ => s.enableSwaScratchReuse = true ∨ ¬ CommitFits M s ans tokens) := by
  have hcore : (s.addTokens tokens).Core M := h.core.addTokens hactive tokens
  have hmatched : ∀ t : KVCache τ, t.neverResumed = s.neverResumed → t.neverResumed = true → M.hasSsm = true →
      t.numCommittedTokens ≠ 0 → t.ssmBlock ≠ none := by
    intro t ht hnever
    rw [ht, h.core.resumed hactive] at hnever
    cases hnever
  cases hlt : decide ((s.addTokens tokens).historyLength < (s.addTokens tokens).numCommittedTokens) with
  | false =>
    have hle := not_lt.1 (of_decide_eq_false hlt)
    exact ⟨⟨⟨⟨hcore, hle, h.ssmLive, h.scratchOff, hmatched _ rfl⟩, rfl, le_rfl, (covers_self_iff hcore).symm⟩,
      rfl, (max_eq_left hle).symm⟩, hactive, hallowed, rfl⟩
  | true =>
    apply (setHistoryLength_spec hcore h.scratchOff ans.resize _).mono
    · rintro - t ⟨haccepts, hok⟩
      have hhistory : t.historyLength = (s.addTokens tokens).numCommittedTokens := hok.historyLength
      have hcount : t.numCommittedTokens = (s.addTokens tokens).numCommittedTokens := congrArg length hok.same.committedTokens
      have h : t.Sound M := ⟨hok.core, (hcount.trans hhistory.symm).le, hok.same.ssmLive h.ssmLive,
        hok.scratchOff h.scratchOff, hmatched t hok.same.neverResumed⟩
      refine ⟨⟨⟨h, hok.same.enable, haccepts.history.trans_eq hhistory.symm, ?_⟩, hok.capacity rfl, ?_⟩,
        hok.same.status.trans hactive, hok.same.commitState.trans hallowed, hcount⟩
      · rw [hhistory, hok.capacity rfl]
        exact hok.present_iff
      · rw [hhistory]
        exact (max_eq_right haccepts.history).symm
    · rintro - t (⟨-, hrefused⟩ | henable)
      · refine .inr fun hfits => hrefused ⟨hactive, (of_decide_eq_true hlt).le, ?_, fun _ => absurd rfl⟩
        exact length_append.trans_le hfits.fits
      · exact .inl henable

theorem commitChecked_spec (hsound : s.Sound M) (hactive : s.status = .active) (hallowed : s.commitState = .allowed)
    (ans : CommitAnswers) (tokens : List τ) (isEnd : Bool) :
    Ends ((onlyWhen (decide ((s.addTokens tokens).historyLength < (s.addTokens tokens).numCommittedTokens))
        (setHistoryLength M ans.resize (s.addTokens tokens).numCommittedTokens) >>= fun _ =>
        commitBlocks M ans.block isEnd) (s.addTokens tokens))
      (fun _ t => CommitMoved M s (s.numCommittedTokens + tokens.length) t)
      (fun _ t => Moved M s t ∨ s.enableSwaScratchReuse = true ∨ ¬ CommitFits M s ans tokens) := by
  have hcount : (s.addTokens tokens).numCommittedTokens = s.numCommittedTokens + tokens.length := length_append
  refine (advanceHistory_spec hsound hactive hallowed ans tokens).bind ?_ fun _ _ => .inr
  rintro - t ⟨hmoved, hactivet, hallowedt, hcountt⟩
  rw [hcount] at hmoved hcountt
  apply (commitBlocks_moved hmoved.sound hactivet hallowedt ans.block isEnd).mono
  · exact fun _ u hu => hmoved.sameShape hu.1 hu.2
  · rintro - u (hu | ⟨i, hfull, hfails⟩)
    · exact .inl (hmoved.sameShape hu.1 hu.2).toMoved
    · exact .inr (.inr fun hfits => hfits.rebase i (hcountt ▸ hfull) hfails)

theorem commit_spec (hsound : s.Sound M) (ans : CommitAnswers) (tokens : List τ) (isEnd : Bool) :
    Ends (commit M ans tokens isEnd s) (fun _ t => CommitMoved M s (s.numCommittedTokens + tokens.length) t)
      (fun _ t => t = s ∨ Moved M s t ∨ s.enableSwaScratchReuse = true ∨
        (tokens ≠ [] ∧ s.status = .active ∧ s.commitState = .allowed ∧ ¬ CommitFits M s ans tokens)) := by
  unfold commit
  by_cases hempty : tokens.isEmpty = true
  · rw [if_pos hempty]
    have hmax : s.historyLength = max s.historyLength (s.numCommittedTokens + tokens.length) := by
      rw [isEmpty_iff.1 hempty]
      exact (max_eq_left hsound.committed_le).symm
    unfold onlyWhen
    split
    · apply (stopCommitting_stayed hsound ans.block).mono
      · exact fun _ t h => ⟨h.toMoved, h.capacity, h.historyLength.trans hmax⟩
      · exact fun _ _ h => .inl h
    · exact ⟨(Stayed.of_sameShape hsound.core hsound (.refl s)).toMoved, rfl, hmax⟩
  · rw [if_neg hempty]
    apply Ends.check (fun _ => .inl rfl)
    intro hactive
    have hactive := of_decide_eq_true hactive
    apply Ends.check (fun _ => .inl rfl)
    intro hstate
    have hallowed : s.commitState = .allowed := by
      have hne := of_decide_eq_true hstate
      cases hs : s.commitState with
      | allowed => rfl
      | virtualStop => exact absurd hs hsound.core.not_virtualStop
      | userStop => exact absurd hs hne
    apply Ends.checkWhen (fun _ _ => .inl rfl)
    intro _
    rw [if_neg (show ¬ s.commitState = .virtualStop by rw [hallowed]; exact nofun)]
    apply (commitChecked_spec hsound hactive hallowed ans tokens isEnd).mono
    · exact fun _ _ h => h
    · rintro - t (hmoved | henable | hnot)
      · exact .inr (.inl hmoved)
      · exact .inr (.inr (.inl henable))
      · exact .inr (.inr (.inr ⟨by simpa using hempty, hactive, hallowed, hnot⟩))

end TrtLlm.KvCache.KVCache
