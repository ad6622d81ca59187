import TrtLlm.KvCache.Sequence.Pages

/-!
# The invariant of a cache

`Core` is what holds of a cache between calls whatever pages are missing; `Present` says that no needed page is
missing. The two are kept apart since scratch reuse can break the second one only.
-/

namespace TrtLlm.KvCache

open List HalfOpenRange AttnLifeCycle KVCacheManager

theorem divUp_mono {x x' y : Nat} (hle : x ≤ x') : divUp x y ≤ divUp x' y := Nat.div_le_div_right (by omega)

theorem div_le_divUp {x y : Nat} (hy : 0 < y) : x / y ≤ divUp x y := Nat.div_le_div_right (by omega)

namespace HalfOpenRange

def countOutside (r : HalfOpenRange) (first n : Nat) : Nat := (List.range' first n).countP fun ordinal => ordinal ∉ r

variable {r : HalfOpenRange} {first n : Nat}

theorem countOutside_succ_of_mem (hmem : first ∈ r) : r.countOutside first (n + 1) = r.countOutside (first + 1) n := by
  rw [countOutside, range'_succ, countP_cons_of_neg]
  · rfl
  · rw [decide_eq_true_iff]
    exact not_not.2 hmem

theorem countOutside_succ_of_not_mem (hnot : first ∉ r) : r.countOutside first (n + 1) = r.countOutside (first + 1) n + 1 := by
  rw [countOutside, range'_succ, countP_cons_of_pos]
  · rfl
  · exact decide_eq_true hnot

theorem countOutside_eq : r.countOutside first n = n - (r.intersect ⟨first, first + n⟩).length := by
  induction n generalizing first with
  | zero => simp [countOutside]
  | succ n ih =>
    by_cases hmem : first ∈ r
    · rw [countOutside_succ_of_mem hmem, ih]
      rw [mem_iff] at hmem
      simp only [intersect, length]
      omega
    · rw [countOutside_succ_of_not_mem hmem, ih]
      rw [mem_iff] at hmem
      simp only [intersect, length]
      omega

end HalfOpenRange

namespace AttnLifeCycle

variable {lc : AttnLifeCycle} {m n tpb i : Nat}

theorem getStaleRange_stop_le (hpos : 0 < tpb) (hwindow : ∀ w, lc.windowSize = some w → 0 < w) :
    (lc.getStaleRange n tpb).stop ≤ divUp n tpb := by
  unfold getStaleRange
  cases hw : lc.windowSize with
  | none => exact min_le_left _ _
  | some w =>
    have hle : (n + 1 - w) / tpb ≤ n / tpb := Nat.div_le_div_right (by have := hwindow w hw; omega)
    have := div_le_divUp (x := n) hpos
    dsimp only
    omega

theorem lt_div_of_mem_getStaleRange (hwindow : ∀ w, lc.windowSize = some w → 0 < w)
    (h : i ∈ lc.getStaleRange n tpb) : i < n / tpb := by
  obtain ⟨-, w, hw, hlt⟩ := mem_getStaleRange.1 h
  exact hlt.trans_le (Nat.div_le_div_right (by have := hwindow w hw; omega))

theorem getStaleRange_mono (hpos : 0 < tpb) (hwindow : ∀ w, lc.windowSize = some w → 0 < w) (hle : m ≤ n)
    (h : i ∈ lc.getStaleRange m tpb) : i ∈ lc.getStaleRange n tpb := by
  have hdiv := (Nat.le_div_iff_mul_le hpos).1 (lt_div_of_mem_getStaleRange hwindow h)
  by_contra hnot
  exact not_mem_getStaleRange_of_le hpos (Nat.lt_of_lt_of_le (Nat.mul_lt_mul_of_pos_right (Nat.lt_succ_self i) hpos) hdiv) hle hnot h

theorem getStaleRange_beg_mono (hle : m ≤ n) : (lc.getStaleRange m tpb).beg ≤ (lc.getStaleRange n tpb).beg := by
  have hup : divUp m tpb ≤ divUp n tpb := divUp_mono hle
  unfold getStaleRange
  cases lc.windowSize <;> dsimp only <;> omega

theorem getStaleRange_stop_mono (hle : m ≤ n) : (lc.getStaleRange m tpb).stop ≤ (lc.getStaleRange n tpb).stop := by
  have hbeg : min (divUp m tpb) lc.numSinkBlocks ≤ min (divUp n tpb) lc.numSinkBlocks := min_le_min_right _ (divUp_mono hle)
  unfold getStaleRange
  cases lc.windowSize with
  | none => exact hbeg
  | some w => exact max_le_max hbeg (Nat.div_le_div_right (by omega))

/-- A scratch block holds no token of the history, and is out of the window whatever is rewound. -/
theorem mem_computeScratchRange_stale (lc : AttnLifeCycle) (hpos : 0 < tpb)
    (hwindow : ∀ w, lc.windowSize = some w → 0 < w) (historyLength capacity maxRewindLen : Nat) :
    (∀ i ∈ computeScratchRange (.attn lc) historyLength capacity tpb maxRewindLen,
      (∀ pos, pos / tpb = i → historyLength ≤ pos) ∧
      ∀ h, max historyLength (capacity - maxRewindLen) ≤ h → i ∈ lc.getStaleRange h tpb) ∧
    (∀ h, (lc.getStaleRange h tpb).stop ≤ divUp h tpb) ∧
    ∀ h h', h ≤ h' → (lc.getStaleRange h tpb).stop ≤ (lc.getStaleRange h' tpb).stop := by
  refine ⟨fun i hi => ?_, fun h => getStaleRange_stop_le hpos hwindow, fun h h' => getStaleRange_stop_mono⟩
  unfold computeScratchRange at hi
  cases hw : lc.windowSize with
  | none => simp [hw] at hi
  | some w =>
    simp only [hw, mem_intersect] at hi
    obtain ⟨hstale, hinput⟩ := hi
    rw [mem_iff, divUp_le_iff hpos] at hinput
    refine ⟨?_, fun h hle => getStaleRange_mono hpos hwindow (le_of_max_le_right hle) hstale⟩
    rintro pos rfl
    exact hinput.1.trans (Nat.div_mul_le_self pos tpb)

theorem mem_computeScratchRange_stale_nine : 2 ∈ (AttnLifeCycle.mk (some 4) 1).getStaleRange 9 2 :=
  ((mem_computeScratchRange_stale ⟨some 4, 1⟩ (by decide) (by simp) 2 12 3).1 2 (by decide)).2 9 (by decide)

end AttnLifeCycle

namespace KVCacheManager

variable {M : KVCacheManager} {lc : LifeCycleId} {h h' i : Nat}

theorem mem_lifeCycleIds : lc ∈ M.lifeCycleIds ↔ lc < M.lifeCycles.length := mem_range

theorem nodup_lifeCycleIds : M.lifeCycleIds.Nodup := nodup_range

theorem exists_attn (h : M.isAttention lc = true) : ∃ attn, M.lifeCycles[lc]? = some (.attn attn) := by
  unfold isAttention at h
  split at h
  · rename_i attn hget
    exact ⟨attn, hget⟩
  · cases h

theorem lt_size_of_isAttention (hattn : M.isAttention lc = true) : lc ∈ M.lifeCycleIds := by
  obtain ⟨attn, hget⟩ := exists_attn hattn
  exact mem_lifeCycleIds.2 (List.getElem?_eq_some_iff.1 hget).1

theorem isAttention_iff (hlc : lc ∈ M.lifeCycleIds) : M.isAttention lc = true ↔ M.isSsm lc = false := by
  obtain ⟨details, hget⟩ : ∃ details, M.lifeCycles[lc]? = some details := ⟨_, getElem?_eq_getElem (mem_lifeCycleIds.1 hlc)⟩
  unfold isAttention isSsm
  rw [hget]
  cases details <;> simp

theorem mem_attentionIds : lc ∈ M.lifeCycleIds.filter (fun l => !M.isSsm l) ↔ M.isAttention lc = true := by
  rw [mem_filter]
  constructor
  · rintro ⟨hlc, hssm⟩
    exact (isAttention_iff hlc).2 (by simpa using hssm)
  · intro hattn
    have hlc := lt_size_of_isAttention hattn
    exact ⟨hlc, by simpa using (isAttention_iff hlc).1 hattn⟩

theorem isAttention_of_isWindowed (h : M.isWindowed lc = true) : M.isAttention lc = true := by
  unfold isWindowed at h
  unfold isAttention
  split at h
  · rfl
  · cases h

theorem staleRange_eq {attn : AttnLifeCycle} (hget : M.lifeCycles[lc]? = some (.attn attn)) :
    M.staleRange lc h = attn.getStaleRange h M.tokensPerBlock := by
  rw [staleRange, hget]
  rfl

theorem window_pos {attn : AttnLifeCycle} (hget : M.lifeCycles[lc]? = some (.attn attn)) :
    ∀ w, attn.windowSize = some w → 0 < w := fun w hw => M.windows_pos attn w (mem_of_getElem? hget) hw

variable (hattn : M.isAttention lc = true)

include hattn

theorem staleRange_stop_le : (M.staleRange lc h).stop ≤ divUp h M.tokensPerBlock := by
  obtain ⟨attn, hget⟩ := exists_attn hattn
  rw [staleRange_eq hget]
  exact getStaleRange_stop_le M.tokensPerBlock_pos (window_pos hget)

theorem staleRange_beg_le_stop : (M.staleRange lc h).beg ≤ (M.staleRange lc h).stop := by
  obtain ⟨attn, hget⟩ := exists_attn hattn
  rw [staleRange_eq hget, AttnLifeCycle.getStaleRange]
  cases attn.windowSize with
  | none => exact le_rfl
  | some w => exact le_max_left _ _

theorem lt_div_of_mem_staleRange (hmem : i ∈ M.staleRange lc h) : i < h / M.tokensPerBlock := by
  obtain ⟨attn, hget⟩ := exists_attn hattn
  rw [staleRange_eq hget] at hmem
  exact lt_div_of_mem_getStaleRange (window_pos hget) hmem

theorem staleRange_mono (hle : h ≤ h') (hmem : i ∈ M.staleRange lc h) : i ∈ M.staleRange lc h' := by
  obtain ⟨attn, hget⟩ := exists_attn hattn
  rw [staleRange_eq hget] at hmem ⊢
  exact getStaleRange_mono M.tokensPerBlock_pos (window_pos hget) hle hmem

theorem not_mem_staleRange_of_not_isWindowed (hwindowed : M.isWindowed lc = false) : i ∉ M.staleRange lc h := by
  obtain ⟨attn, hget⟩ := exists_attn hattn
  have hnone : attn.windowSize = none := by
    unfold isWindowed at hwindowed
    rw [hget] at hwindowed
    simpa using hwindowed
  rw [staleRange_eq hget, mem_iff]
  unfold getStaleRange
  rw [hnone]
  dsimp only
  omega

end KVCacheManager

namespace KVCache

theorem nodup_entries {lcs : List LifeCycleId} (hlcs : lcs.Nodup) {ordinals : LifeCycleId → List Nat}
    (hordinals : ∀ lc ∈ lcs, (ordinals lc).Nodup) :
    (lcs.flatMap fun lc => (ordinals lc).map fun ordinal => (ordinal, lc)).Nodup := by
  apply nodup_flatMap.2
  refine ⟨fun lc hlc => (hordinals lc hlc).map fun a b => congrArg Prod.fst, ?_⟩
  apply List.Pairwise.imp _ hlcs
  intro lc lc' hne x hx hx'
  obtain ⟨_, -, rfl⟩ := mem_map.1 hx
  obtain ⟨_, -, heq⟩ := mem_map.1 hx'
  exact hne (congrArg Prod.snd heq).symm

variable {τ : Type} {M : KVCacheManager} {s : KVCache τ} {lc : LifeCycleId} {h c i : Nat}

theorem mem_scratchRangeAt :
    i ∈ s.scratchRangeAt M lc h c ↔ s.enableSwaScratchReuse = true ∧ M.isWindowed lc = true ∧
      i ∈ M.staleRange lc (c - M.maxRewindLen) ∧ divUp h M.tokensPerBlock ≤ i ∧ i < divUp c M.tokensPerBlock := by
  unfold scratchRangeAt
  split
  · rename_i henable
    cases hget : M.lifeCycles[lc]? with
    | none => simp [isWindowed, hget]
    | some details =>
      cases details with
      | ssm => simp [computeScratchRange, isWindowed, hget]
      | attn attn =>
        rw [staleRange_eq hget]
        unfold computeScratchRange isWindowed
        rw [hget]
        cases hw : attn.windowSize with
        | none => simp [hw]
        | some w =>
          dsimp only
          rw [hw, mem_intersect]
          simp [henable]
  · rename_i henable
    simp [henable]

theorem not_mem_scratchRangeAt (henable : s.enableSwaScratchReuse = false) : i ∉ s.scratchRangeAt M lc h c := by
  rw [mem_scratchRangeAt, henable]
  simp

theorem mem_newlyStale {h' : Nat} (hle : s.historyLength ≤ h') :
    (i, lc) ∈ s.newlyStale M h' ↔ M.isAttention lc = true ∧ i < s.blocks.length ∧ i ∈ M.staleRange lc h' ∧
      i ∉ M.staleRange lc s.historyLength := by
  unfold newlyStale
  constructor
  · intro hmem
    split at hmem
    · cases hmem
    simp only [mem_flatMap, mem_filter, mem_map, mem_range'_1] at hmem
    obtain ⟨l, ⟨-, hwindowed⟩, j, hj, rfl, rfl⟩ := hmem
    simp only [mem_iff]
    exact ⟨M.isAttention_of_isWindowed hwindowed, by omega, by omega, by omega⟩
  · rintro ⟨hattn, hlen, hmem, hnot⟩
    have hwindowed : M.isWindowed lc = true := by
      by_contra hw
      exact M.not_mem_staleRange_of_not_isWindowed hattn (by simpa using hw) hmem
    have hne : h' ≠ s.historyLength := by
      rintro rfl
      exact hnot hmem
    have hbeg : (M.staleRange lc s.historyLength).beg ≤ (M.staleRange lc h').beg := by
      obtain ⟨attn, hget⟩ := M.exists_attn hattn
      rw [M.staleRange_eq hget, M.staleRange_eq hget]
      exact getStaleRange_beg_mono hle
    rw [if_neg hne]
    simp only [mem_flatMap, mem_filter, mem_map, mem_range'_1, Prod.mk.injEq]
    rw [mem_iff] at hmem hnot
    exact ⟨lc, ⟨M.lt_size_of_isAttention hattn, hwindowed⟩, i, by omega, rfl, rfl⟩

theorem nodup_newlyStale {h' : Nat} : (s.newlyStale M h').Nodup := by
  unfold newlyStale
  split
  · exact nodup_nil
  · exact nodup_entries (M.nodup_lifeCycleIds.filter _) fun lc _ => nodup_range' ..

/-- What holds of an open cache between calls, apart from the presence of its pages. -/
structure Core (M : KVCacheManager) (s : KVCache τ) : Prop where
  isOpen : s.status ≠ .closed
  tabled : s.Tabled
  history_le : s.historyLength ≤ s.capacity
  length_blocks : s.blocks.length = divUp s.capacity M.tokensPerBlock
  attention : ∀ i lc p, s.page i lc = some p → M.isAttention lc = true
  locked : s.status = .active → ∀ i lc p, s.page i lc = some p → i ∉ M.staleRange lc s.historyLength → p.isLock = true
  unlocked : ∀ i lc p, s.page i lc = some p → (s.status = .active → i ∈ M.staleRange lc s.historyLength) → p.isLock = false
  stale_committed : ∀ i lc, M.isAttention lc = true → i ∈ M.staleRange lc s.historyLength → s.isCommitted i = true →
    s.page i lc = none
  kind : ∀ i lc p, s.page i lc = some p → p.committed = s.isCommitted i
  uncommitted : s.neverResumed = false → ∀ i, s.numCommittedBlocks ≤ i → s.isCommitted i = false
  suspended_of_never : s.neverResumed = true → s.status = .suspended
  capacity_of_never : s.neverResumed = true → s.capacity = s.numCommittedTokens
  blocks_of_never : s.neverResumed = true → s.numCommittedTokens / M.tokensPerBlock ≤ s.numCommittedBlocks
  committed_of_never : s.neverResumed = true → ∀ i, i < s.blocks.length → s.isCommitted i = true
  not_virtualStop : s.commitState ≠ .virtualStop

/-- The same entries are pages, of the same kind, and locked; only slot ids may differ. -/
def SameKind (pages pages' : Nat → LifeCycleId → Option BlockPage) : Prop :=
  ∀ i lc, (pages i lc).map (fun p => (p.committed, p.isLock)) = (pages' i lc).map fun p => (p.committed, p.isLock)

variable {pages pages' : Nat → LifeCycleId → Option BlockPage}

theorem SameKind.exists_of_some (hsame : SameKind pages pages') {p : BlockPage} (hp : pages i lc = some p) :
    ∃ q, pages' i lc = some q ∧ q.committed = p.committed ∧ q.isLock = p.isLock := by
  have heq := hsame i lc
  rw [hp] at heq
  obtain ⟨q, hq, hpair⟩ := Option.map_eq_some_iff.1 heq.symm
  exact ⟨q, hq, congrArg Prod.fst hpair, congrArg Prod.snd hpair⟩

theorem SameKind.eq_none_iff (hsame : SameKind pages pages') : pages i lc = none ↔ pages' i lc = none := by
  rw [← Option.map_eq_none_iff, hsame i lc, Option.map_eq_none_iff]

variable (hcore : s.Core M)

include hcore

/-- Pages are rewritten or released: each that is left has taken the place of one of the same kind, and is locked as the
status asks. -/
theorem Core.rewrite {status : CacheStatus} (ssm : Option BlockPage) (scratch : LifeCycleId → List SlotId)
    (hopen : status ≠ .closed) (hnever : s.neverResumed = true → status = .suspended)
    (hback : ∀ {i lc p}, pages i lc = some p → ∃ q, s.page i lc = some q ∧ q.committed = p.committed ∧
      (status = .active → i ∉ M.staleRange lc s.historyLength → p.isLock = true) ∧
        ((status = .active → i ∈ M.staleRange lc s.historyLength) → p.isLock = false)) :
    Core M { s.withPages pages with status := status, ssmBlock := ssm, scratchSlots := scratch } := by
  have hof : ∀ {i lc p}, (s.withPages pages).page i lc = some p → pages i lc = some p :=
    fun hpage => (exists_of_page_withPages hpage).2
  exact
    { isOpen := hopen
      tabled := tabled_withPages
      history_le := hcore.history_le
      length_blocks := length_blocks_withPages.trans hcore.length_blocks
      attention := fun i lc p hpage => by
        obtain ⟨q, hq, -⟩ := hback (hof hpage)
        exact hcore.attention i lc q hq
      locked := fun hactive i lc p hpage hlive => by
        obtain ⟨q, -, -, hlock, -⟩ := hback (hof hpage)
        exact hlock hactive hlive
      unlocked := fun i lc p hpage hnot => by
        obtain ⟨q, -, -, -, hunlock⟩ := hback (hof hpage)
        exact hunlock hnot
      stale_committed := fun i lc hattn hmem hcommitted => by
        by_contra hne
        obtain ⟨p, hpage⟩ := Option.ne_none_iff_exists'.1 hne
        obtain ⟨q, hq, -⟩ := hback (hof hpage)
        rw [hcore.stale_committed i lc hattn hmem (isCommitted_withPages.symm.trans hcommitted)] at hq
        cases hq
      kind := fun i lc p hpage => by
        obtain ⟨q, hq, hkind, -⟩ := hback (hof hpage)
        exact hkind.symm.trans ((hcore.kind i lc q hq).trans isCommitted_withPages.symm)
      uncommitted := fun hresumed i hi => isCommitted_withPages.trans (hcore.uncommitted hresumed i hi)
      suspended_of_never := hnever
      capacity_of_never := hcore.capacity_of_never
      blocks_of_never := hcore.blocks_of_never
      committed_of_never := fun hnever i hi =>
        isCommitted_withPages.trans (hcore.committed_of_never hnever i (hi.trans_eq length_blocks_withPages))
      not_virtualStop := hcore.not_virtualStop }

theorem Core.withPages
    (hpages : ∀ {i lc p}, pages i lc = some p → ∃ q, s.page i lc = some q ∧ q.committed = p.committed ∧ q.isLock = p.isLock) :
    (s.withPages pages).Core M := by
  refine hcore.rewrite s.ssmBlock s.scratchSlots hcore.isOpen hcore.suspended_of_never fun hpage => ?_
  obtain ⟨q, hq, hkind, hlock⟩ := hpages hpage
  rw [← hlock]
  exact ⟨q, hq, hkind, fun hactive => hcore.locked hactive _ _ q hq, hcore.unlocked _ _ q hq⟩

theorem Core.resumed (hactive : s.status = .active) : s.neverResumed = false := by
  by_contra hnever
  exact nomatch hactive.symm.trans (hcore.suspended_of_never (by simpa using hnever))

theorem Core.lt_of_stale (hnever : s.neverResumed = true) (hattn : M.isAttention lc = true)
    (hmem : i ∈ M.staleRange lc s.historyLength) : i < s.numCommittedTokens / M.tokensPerBlock :=
  (M.lt_div_of_mem_staleRange hattn hmem).trans_le
    (Nat.div_le_div_right (hcore.history_le.trans_eq (hcore.capacity_of_never hnever)))

theorem Core.scratchSlots (scratch : LifeCycleId → List SlotId) : Core M { s with scratchSlots := scratch } := { hcore with }

variable (M) (s)

/-- Every block that is neither stale nor a scratch block holds a page of its own. -/
def Present : Prop :=
  ∀ i lc, i < s.blocks.length → M.isAttention lc = true → i ∉ M.staleRange lc s.historyLength →
    i ∉ s.scratchRange M lc → s.page i lc ≠ none

/-- While tokens may be committed, a resumed cache has an SSM state of its own to snapshot. -/
def SsmLive : Prop :=
  s.neverResumed = false → s.commitState = .allowed → M.hasSsm = true →
    ∃ p, s.ssmBlock = some p ∧ p.committed = false ∧ (p.isLock = true ↔ s.status = .active)

/-- Without scratch reuse there are no scratch slots. -/
def ScratchOff : Prop := s.enableSwaScratchReuse = false → ∀ lc ∈ M.lifeCycleIds, s.scratchSlots lc = []

end KVCache

end TrtLlm.KvCache
