import TrtLlm.KvCache.Sequence.Basic

/-!
# Pages and the index table

Every operation of a cache replaces pages of its blocks, and locks write the index table on the side. As long as the
table shows the locked pages (`Tabled`), an operation is described by the pages it leaves (`withPages`). One loop rule
(`forM_withPages`) serves all loops over entries of the blocks.
-/

namespace TrtLlm.KvCache.KVCache

open List Function BlockPage

variable {τ : Type}

/-- The index table shows the locked pages, and nothing else. -/
def Tabled (s : KVCache τ) : Prop := ∀ lc, s.basePageIndices lc = s.blocks.map fun block => basePageIndex (block.pages lc)

/-- The cache with other pages in its blocks, and the index table that goes with them. -/
def withPages (s : KVCache τ) (pages : Nat → LifeCycleId → Option BlockPage) : KVCache τ := { s with
    blocks := s.blocks.mapIdx fun ordinal block => { block with pages := pages ordinal }
    basePageIndices := fun lc => (range s.blocks.length).map fun ordinal => basePageIndex (pages ordinal lc) }

def put (pages : Nat → LifeCycleId → Option BlockPage) (ordinal : Nat) (lc : LifeCycleId) (p : Option BlockPage) :
    Nat → LifeCycleId → Option BlockPage :=
  fun i l => if i = ordinal ∧ l = lc then p else pages i l

section Facts

variable {s : KVCache τ} {pages pages' : Nat → LifeCycleId → Option BlockPage} {ord : Nat} {lc : LifeCycleId}
  {p : Option BlockPage}

theorem put_self : put pages ord lc p ord lc = p := if_pos ⟨rfl, rfl⟩

variable {i : Nat} {isSet : Bool}

theorem put_of_ne {l : LifeCycleId} (hne : (i, l) ≠ (ord, lc)) : put pages ord lc p i l = pages i l :=
  if_neg fun h => hne (Prod.ext h.1 h.2)

theorem put_put {q : Option BlockPage} : put (put pages ord lc p) ord lc q = put pages ord lc q := by
  funext i l
  unfold put
  split <;> rfl

@[simp] theorem length_blocks_withPages : (s.withPages pages).blocks.length = s.blocks.length := by
  simp [withPages]

theorem page_eq_none (hlen : s.blocks.length ≤ ord) : s.page ord lc = none := by
  rw [page, getElem?_eq_none hlen]
  rfl

theorem lt_length_of_page {q : BlockPage} (hpage : s.page ord lc = some q) : ord < s.blocks.length := by
  by_contra hlen
  rw [page_eq_none (not_lt.1 hlen)] at hpage
  cases hpage

theorem page_of_getElem? {block : SeqBlock} (hblock : s.blocks[ord]? = some block) : s.page ord lc = block.pages lc := by
  rw [page, hblock]
  rfl

theorem page_withPages (hlen : ord < s.blocks.length) : (s.withPages pages).page ord lc = pages ord lc := by
  rw [page, withPages, getElem?_mapIdx, getElem?_eq_getElem hlen]
  rfl

theorem page_withPages_of_eq (heq : pages ord lc = s.page ord lc) :
    (s.withPages pages).page ord lc = s.page ord lc := by
  by_cases hlen : ord < s.blocks.length
  · rw [page_withPages hlen, heq]
  · rw [page_eq_none (by simpa using hlen), page_eq_none (not_lt.1 hlen)]

theorem page_withPages_eq_none_iff (hiff : pages ord lc = none ↔ s.page ord lc = none) :
    (s.withPages pages).page ord lc = none ↔ s.page ord lc = none := by
  by_cases hlen : ord < s.blocks.length
  · rw [page_withPages hlen, hiff]
  · rw [page_eq_none (by simpa using hlen), page_eq_none (not_lt.1 hlen)]

theorem exists_of_page_withPages {q : BlockPage} (h : (s.withPages pages).page ord lc = some q) :
    ord < s.blocks.length ∧ pages ord lc = some q := by
  have hlen : ord < s.blocks.length := by simpa using lt_length_of_page h
  rw [page_withPages hlen] at h
  exact ⟨hlen, h⟩

@[simp] theorem isCommitted_withPages : (s.withPages pages).isCommitted ord = s.isCommitted ord := by
  rw [isCommitted, isCommitted, withPages, getElem?_mapIdx]
  cases s.blocks[ord]? <;> rfl

theorem getElem?_basePageIndices_withPages :
    ((s.withPages pages).basePageIndices lc)[i]? = s.blocks[i]?.map fun _ => basePageIndex (pages i lc) := by
  simp only [withPages, getElem?_map]
  by_cases hi : i < s.blocks.length
  · rw [getElem?_range hi, getElem?_eq_getElem hi]
    rfl
  · rw [getElem?_eq_none (not_lt.1 hi), getElem?_eq_none (by simpa using not_lt.1 hi)]
    rfl

theorem tabled_withPages : (s.withPages pages).Tabled := by
  intro lc
  apply ext_getElem?
  intro i
  rw [getElem?_basePageIndices_withPages, getElem?_map]
  simp only [withPages, getElem?_mapIdx, Option.map_map]
  rfl

theorem Tabled.getElem? (htab : s.Tabled) (lc : LifeCycleId) (i : Nat) :
    (s.basePageIndices lc)[i]? = s.blocks[i]?.map fun _ => basePageIndex (s.page i lc) := by
  rw [htab lc, getElem?_map]
  cases hblock : s.blocks[i]? with
  | none => rfl
  | some block => rw [page_of_getElem? hblock]; rfl

/-- Blocks and index table, entry by entry, determine a cache that otherwise agrees with `s`. -/
theorem eq_withPages {t : KVCache τ}
    (hrest : t = { s with blocks := t.blocks, basePageIndices := t.basePageIndices })
    (hblocks : ∀ i : Nat, t.blocks[i]? = s.blocks[i]?.map fun block => { block with pages := pages i })
    (hindices : ∀ l i, (t.basePageIndices l)[i]? = s.blocks[i]?.map fun _ => basePageIndex (pages i l)) :
    t = s.withPages pages := by
  have hblocks' : t.blocks = (s.withPages pages).blocks := ext_getElem? fun i => by
    rw [hblocks, withPages, getElem?_mapIdx]
  have hindices' : t.basePageIndices = (s.withPages pages).basePageIndices := funext fun l =>
    ext_getElem? fun i => by rw [hindices, getElem?_basePageIndices_withPages]
  refine hrest.trans ?_
  rw [hblocks', hindices']
  rfl

theorem withPages_congr (heq : ∀ i, i < s.blocks.length → ∀ l, pages i l = pages' i l) :
    s.withPages pages = s.withPages pages' := by
  unfold withPages
  congr 1
  · apply mapIdx_eq_mapIdx_iff.2
    intro i hi
    rw [show pages i = pages' i from funext (heq i hi)]
  · funext l
    apply map_congr_left
    intro i hi
    rw [heq i (mem_range.1 hi)]

theorem withPages_withPages : (s.withPages pages).withPages pages' = s.withPages pages' := by
  unfold withPages
  congr 1
  · rw [mapIdx_mapIdx]
    rfl
  · rw [length_mapIdx]

theorem withPages_put_withPages :
    (s.withPages pages).withPages (put (s.withPages pages).page ord lc p) = s.withPages (put pages ord lc p) := by
  rw [withPages_withPages]
  apply withPages_congr
  intro i hi l
  unfold put
  rw [page_withPages hi]

theorem withPages_update_withPages {row : LifeCycleId → Option BlockPage} :
    (s.withPages pages).withPages (update (s.withPages pages).page ord row) = s.withPages (update pages ord row) := by
  rw [withPages_withPages]
  apply withPages_congr
  intro i hi l
  by_cases h : i = ord
  · rw [h, update_self, update_self]
  · rw [update_of_ne h, update_of_ne h, page_withPages hi]

theorem withPages_page (htab : s.Tabled) : s.withPages s.page = s := by
  refine (eq_withPages rfl (fun i => ?_) htab.getElem?).symm
  cases hblock : s.blocks[i]? with
  | none => rfl
  | some block =>
    show some block = some { block with pages := s.page i }
    rw [show s.page i = block.pages from funext fun l => page_of_getElem? hblock]

theorem ok_eq_withPages_put (htab : s.Tabled) (hpage : s.page ord lc = p) :
    (.ok ⟨⟩ s : EStateM.Result CacheError (KVCache τ) PUnit) = .ok ⟨⟩ (s.withPages (put s.page ord lc p)) := by
  have hput : put s.page ord lc (s.page ord lc) = s.page := by
    funext i l
    by_cases h : (i, l) = (ord, lc)
    · cases h
      exact put_self
    · exact put_of_ne h
  rw [← hpage, hput, withPages_page htab]

theorem setPage_eq {q : Option BlockPage} {indices : LifeCycleId → List Int}
    (hindices : ∀ l i, (indices l)[i]? = s.blocks[i]?.map fun _ => basePageIndex (put s.page ord lc q i l)) :
    { s.setPage ord lc q with basePageIndices := indices } = s.withPages (put s.page ord lc q) := by
  refine eq_withPages rfl (fun i => ?_) hindices
  show (s.blocks.modify ord _)[i]? = _
  rw [getElem?_modify]
  cases hblock : s.blocks[i]? with
  | none => rfl
  | some block =>
    have hpages : put s.page ord lc q i = fun l => if i = ord ∧ l = lc then q else block.pages l := by
      funext l
      rw [put, page_of_getElem? hblock]
    rw [hpages]
    by_cases hi : ord = i
    · simp [hi]
    · simp [hi, Ne.symm hi]

theorem withPages_put (htab : s.Tabled) (ord : Nat) (lc : LifeCycleId) (q : Option BlockPage) :
    (s.setPage ord lc q).setBasePageIndex ord lc (basePageIndex q) = s.withPages (put s.page ord lc q) := by
  refine setPage_eq fun l i => ?_
  show (if l = lc then (s.basePageIndices l).set ord _ else s.basePageIndices l)[i]? = _
  by_cases hl : l = lc
  · rw [if_pos hl, getElem?_set', htab.getElem?]
    by_cases hi : ord = i
    · rw [if_pos hi, hi, hl, put_self]
      cases s.blocks[i]? <;> rfl
    · rw [if_neg hi, put_of_ne fun h => hi (congrArg Prod.fst h).symm]
  · rw [if_neg hl, htab.getElem?, put_of_ne fun h => hl (congrArg Prod.snd h)]

/-! The tree block of a block has nothing to do with its pages. -/

theorem getElem?_setTreeBlock :
    (s.setTreeBlock ord isSet).blocks[i]? =
      s.blocks[i]?.map fun block => if ord = i then { block with treeBlock := isSet } else block := by
  show (s.blocks.modify ord _)[i]? = _
  rw [getElem?_modify]
  rfl

@[simp] theorem length_blocks_setTreeBlock : (s.setTreeBlock ord isSet).blocks.length = s.blocks.length := length_modify _ _ _

@[simp] theorem page_setTreeBlock : (s.setTreeBlock ord isSet).page i lc = s.page i lc := by
  rw [page, page, getElem?_setTreeBlock]
  cases s.blocks[i]? with
  | none => rfl
  | some block =>
    split <;> rfl

theorem isCommitted_setTreeBlock (isSet : Bool) (hlen : ord < s.blocks.length) :
    (s.setTreeBlock ord isSet).isCommitted i = if i = ord then isSet else s.isCommitted i := by
  rw [isCommitted, isCommitted, getElem?_setTreeBlock]
  by_cases hi : i = ord
  · subst hi
    rw [getElem?_eq_getElem hlen]
    simp
  · rw [if_neg hi]
    cases s.blocks[i]? with
    | none => rfl
    | some block => simp [Ne.symm hi]

theorem tabled_setTreeBlock (htab : s.Tabled) : (s.setTreeBlock ord isSet).Tabled := by
  intro lc
  show s.basePageIndices lc = _
  rw [htab lc]
  apply ext_getElem?
  intro i
  rw [getElem?_map, getElem?_map, getElem?_setTreeBlock]
  cases s.blocks[i]? with
  | none => rfl
  | some block =>
    split <;> rfl

end Facts

section Single

variable {s : KVCache τ} {ord : Nat} {lc : LifeCycleId} {cond : Bool}

theorem checkCache_of {error : CacheError} (h : cond = true) : checkCache cond error s = .ok ⟨⟩ s := by
  rw [checkCache, if_pos h]

theorem assertCache_of (h : cond = true) : assertCache cond s = .ok ⟨⟩ s := checkCache_of h

theorem onlyWhen_of {m : CacheM τ PUnit} (h : cond = true) : onlyWhen cond m = m := if_pos h

theorem onlyWhen_of_not {m : CacheM τ PUnit} (h : cond = false) : onlyWhen cond m = pure ⟨⟩ := by
  rw [h]
  rfl

theorem holder_of_not_isLock {p : BlockPage} (hlock : p.isLock = false) : p.holder = p := by
  have hnone : p.lock = none := by simpa [isLock] using hlock
  unfold holder
  rw [← hnone]

theorem basePageIndex_of_not_isLock {p : Option BlockPage} (hlock : p.any isLock = false) : basePageIndex p = badPageIndex := by
  cases p with
  | none => rfl
  | some p =>
    have hnone : p.lock = none := by simpa [isLock] using hlock
    simp [basePageIndex, hnone]

theorem assignPage_eq (htab : s.Tabled) {p : Option BlockPage} (hlock : p.any isLock = false) :
    assignPage ord lc p s = .ok ⟨⟩ (s.withPages (put s.page ord lc p)) := by
  have hbad := basePageIndex_of_not_isLock hlock
  show EStateM.Result.ok _ (if _ then _ else _) = _
  split
  · rw [← withPages_put htab, hbad]
  rename_i hold
  -- the entry was bad before
  have hold := basePageIndex_of_not_isLock (by simpa using hold)
  refine congrArg _ (setPage_eq fun l i => ?_)
  rw [htab.getElem?]
  by_cases h : (i, l) = (ord, lc)
  · cases h
    rw [put_self, hold, hbad]
  · rw [put_of_ne h]

theorem lockPage_eq (htab : s.Tabled) (hlen : ord < s.blocks.length) {committed : Bool} {slot : SlotId}
    (hlock : (s.page ord lc).any isLock = false) :
    lockPage ord lc committed slot s = .ok ⟨⟩ (s.withPages (put s.page ord lc (some ⟨committed, some slot⟩))) := by
  have hget : (s.basePageIndices lc)[ord]? = some badPageIndex := by
    rw [htab.getElem?, getElem?_eq_getElem hlen, basePageIndex_of_not_isLock hlock]
    rfl
  have hwrite : writeLockedIndex ord lc slot s = .ok ⟨⟩ (s.setBasePageIndex ord lc slot) := by
    rw [writeLockedIndex, get_bind_apply, hget]
    rfl
  rw [lockPage, bind_ok hwrite, ← withPages_put htab]
  rfl

/-- The loop rule: a loop that visits entries once each and puts in each what `pages` has there ends with `pages` if
these are the old pages elsewhere. -/
theorem forM_withPages {γ : Type} (entry : γ → Nat × LifeCycleId) (pages : Nat → LifeCycleId → Option BlockPage)
    (body : γ → CacheM τ PUnit) (xs : List γ) (hnodup : (xs.map entry).Nodup) (htab : s.Tabled)
    (hframe : ∀ i l, (i, l) ∉ xs.map entry → pages i l = s.page i l)
    (hbody : ∀ x ∈ xs, ∀ t f, t = s.withPages f →
      t.page (entry x).1 (entry x).2 = s.page (entry x).1 (entry x).2 →
        body x t = .ok ⟨⟩ (t.withPages (put t.page (entry x).1 (entry x).2 (pages (entry x).1 (entry x).2)))) :
    xs.forM body s = .ok ⟨⟩ (s.withPages pages) := by
  -- the loop starts anywhere on the way, with the entries still to visit as they were
  have hrun : ∀ (ys : List γ) (f : Nat → LifeCycleId → Option BlockPage), (∀ x ∈ ys, x ∈ xs) → (ys.map entry).Nodup →
      (∀ x ∈ ys, f (entry x).1 (entry x).2 = s.page (entry x).1 (entry x).2) →
      (∀ i l, (i, l) ∉ ys.map entry → f i l = pages i l) →
      ys.forM body (s.withPages f) = .ok ⟨⟩ (s.withPages pages) := by
    intro ys
    induction ys with
    | nil =>
      intro f _ _ _ hdone
      rw [funext₂ fun i l => hdone i l not_mem_nil]
      rfl
    | cons x ys ih =>
      intro f hmem hys hkept hdone
      rw [map_cons, nodup_cons] at hys
      have hfirst := hbody x (hmem x (.head _)) _ f rfl (page_withPages_of_eq (hkept x (.head _)))
      rw [withPages_put_withPages] at hfirst
      rw [forM_cons_ok hfirst]
      refine ih _ (fun y hy => hmem y (.tail _ hy)) hys.2 (fun y hy => ?_) fun i l hil => ?_
      · rw [put_of_ne fun h => hys.1 (mem_map.2 ⟨y, hy, h⟩), hkept y (.tail _ hy)]
      · by_cases h : (i, l) = entry x
        · rw [← h, put_self]
        · rw [put_of_ne h, hdone i l fun hmem => (mem_cons.1 hmem).elim h hil]
  have hall := hrun xs s.page (fun _ h => h) hnodup (fun _ _ => rfl) fun i l h => (hframe i l h).symm
  rwa [withPages_page htab] at hall

theorem forM_entries {entries : List (Nat × LifeCycleId)} (pages : Nat → LifeCycleId → Option BlockPage)
    (body : Nat × LifeCycleId → CacheM τ PUnit) (hnodup : entries.Nodup) (htab : s.Tabled)
    (hframe : ∀ i l, (i, l) ∉ entries → pages i l = s.page i l)
    (hbody : ∀ i l, (i, l) ∈ entries → ∀ t f, t = s.withPages f → t.page i l = s.page i l →
      body (i, l) t = .ok ⟨⟩ (t.withPages (put t.page i l (pages i l)))) :
    entries.forM body s = .ok ⟨⟩ (s.withPages pages) :=
  forM_withPages id pages body entries (by rwa [map_id]) htab (by rwa [map_id]) fun entry => hbody entry.1 entry.2

theorem forM_row {lcs : List LifeCycleId} (ord : Nat) (row : LifeCycleId → Option BlockPage)
    (body : LifeCycleId → CacheM τ PUnit) (hnodup : lcs.Nodup) (htab : s.Tabled)
    (hframe : ∀ lc ∉ lcs, row lc = s.page ord lc)
    (hbody : ∀ lc ∈ lcs, ∀ t f, t = s.withPages f → t.page ord lc = s.page ord lc →
      body lc t = .ok ⟨⟩ (t.withPages (put t.page ord lc (row lc)))) :
    lcs.forM body s = .ok ⟨⟩ (s.withPages (update s.page ord row)) := by
  refine forM_withPages (fun lc => (ord, lc)) _ body lcs (hnodup.map fun _ _ => congrArg Prod.snd) htab
    (fun i lc hmem => ?_) fun lc hlc t f ht hpage => ?_
  · by_cases hi : i = ord
    · subst hi
      rw [update_self, hframe lc fun hlc => hmem (mem_map.2 ⟨lc, hlc, rfl⟩)]
    · rw [update_of_ne hi]
  · rw [update_self]
    exact hbody lc hlc t f ht hpage

end Single

end TrtLlm.KvCache.KVCache
