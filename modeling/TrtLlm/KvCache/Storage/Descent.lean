import TrtLlm.KvCache.Storage.Migration

/-!
# Pages on their way down

While `_prepare_free_slots` works, the pages it took out of the queues of upper levels are only in its lists. This
module follows such a list: into the level that accepts it, or out of the cache.
-/

namespace TrtLlm.KvCache.StorageParams

open List Prod

variable {T : Type} {P : StorageParams T}

/-- A page that was evicted: droppable and committed, or held. -/
def Movable (p : Page) : Prop := (p.status = .droppable ∧ p.committed = true) ∨ p.status = .held

theorem Follows.movable {p q : Page} (h : Follows p q) (hp : Movable p) : Movable q := by
  rw [Movable, h.status, h.committed]
  exact hp

/-- The pages `ids` of pool group `g` are in a list and nowhere else, on their way from levels above `lvl`. -/
structure Transit (P : StorageParams T) (s : Storage T) (lvl g : Nat) (ids : List PageId) : Prop where
  nodup : ids.Nodup
  mem : ∀ {id}, id ∈ ids → ∃ p, s.page id = some p ∧ p.nodeRef = false ∧ p.cacheLevel < lvl ∧ P.poolGroup p = g ∧ Movable p

variable {ids' ids : List PageId} {s : Storage T} {isLast : Bool} {lvl : Nat}

namespace Transit

variable {s t : Storage T} {lvl g : Nat} {ids : List PageId}

theorem nil (s : Storage T) (lvl g : Nat) : Transit P s lvl g [] := ⟨nodup_nil, nofun⟩

variable (h : Transit P s lvl g ids)

include h

theorem sublist (hsub : ids'.Sublist ids) : Transit P s lvl g ids' := ⟨h.nodup.sublist hsub, fun hid => h.mem (hsub.subset hid)⟩

theorem perm (hperm : ids'.Perm ids) : Transit P s lvl g ids' :=
  ⟨hperm.nodup_iff.2 h.nodup, fun hid => h.mem (hperm.mem_iff.1 hid)⟩

variable {lvl' : Nat} {X : PageId → Prop} (hframe : Frame lvl' X s t) (hX : ∀ id ∈ ids, ¬ X id)

include hframe hX

theorem frame : Transit P t lvl g ids := by
  refine ⟨h.nodup, fun {id} hid => ?_⟩
  obtain ⟨p, hp, hnode, hrest⟩ := h.mem hid
  obtain ⟨b, hb⟩ := hframe.stay hp hnode (hX id hid)
  exact ⟨_, hb, hnode, hrest⟩

theorem hasStatus_frame (status : PageStatus) {id : PageId} (hid : id ∈ ids) : t.hasStatus status id = s.hasStatus status id := by
  obtain ⟨p, hp, hnode, _⟩ := h.mem hid
  obtain ⟨b, hb⟩ := hframe.stay hp hnode (hX id hid)
  rw [Storage.hasStatus, Storage.hasStatus, hp, hb]
  rfl

theorem countP_frame (l : Nat) : ids.countP (atLevel t l) = ids.countP (atLevel s l) := by
  refine countP_congr fun id hid => ?_
  obtain ⟨p, hp, hnode, _⟩ := h.mem hid
  obtain ⟨b, hb⟩ := hframe.stay hp hnode (hX id hid)
  rw [atLevel_eq hp, atLevel_eq hb]

omit hframe hX

theorem congr (hpage : ∀ id ∈ ids, t.page id = s.page id) : Transit P t lvl g ids := by
  refine ⟨h.nodup, fun {id} hid => ?_⟩
  rw [hpage id hid]
  exact h.mem hid

theorem apart {g' : Nat} (h' : Transit P s lvl' g' ids') (hne : g ≠ g') : ∀ id ∈ ids', id ∉ ids := by
  intro id hid' hid
  obtain ⟨p, hp, _, _, hgroup, _⟩ := h.mem hid
  obtain ⟨p', hp', _, _, hgroup', _⟩ := h'.mem hid'
  cases hp.symm.trans hp'
  exact hne (hgroup.symm.trans hgroup')

end Transit

variable {id : PageId} {g dst src : Nat} {t u : Storage T}

/-- A page that has just been migrated to `lvl` gets a node there, unless it is held in the last level. -/
theorem scheduleAccepted_spec (h : P.Inv s) {p : Page} (hp : s.page id = some p) (hnode : p.nodeRef = false)
    (hmovable : Movable p) (hlast : isLast = false ↔ p.cacheLevel + 1 < P.numCacheLevels) :
    ∃ t b, P.scheduleAccepted p.cacheLevel isLast id s = .ok ⟨⟩ t ∧ P.Rewritten s id { p with nodeRef := b } t ∧
      (P.isEvictable p = true → b = true) := by
  by_cases hheld : (isLast && p.status = .held) = true
  · refine ⟨s, false, ?_, ⟨h, rfl, .symm ?_⟩, fun hevictable => ?_⟩
    · rw [scheduleAccepted, bind_ok (getPage_eq hp), onlyIf_false (by rw [hheld]; rfl)]
    · exact page_setPage_self (by rw [hp, ← hnode])
    rw [Bool.and_eq_true, decide_eq_true_eq] at hheld
    rw [isEvictable, decide_eq_true_eq, hheld.2] at hevictable
    rcases hevictable with ⟨hdrop, _⟩ | ⟨_, hlower⟩
    · cases hdrop
    · rw [hlast.2 hlower] at hheld
      cases hheld.1
  · have hevictable : P.isEvictable p = true := by
      rw [isEvictable, decide_eq_true_eq]
      rcases hmovable with hdrop | hheld'
      · exact .inl hdrop
      refine .inr ⟨hheld', hlast.1 ?_⟩
      by_contra hne
      apply hheld
      rw [Bool.and_eq_true]
      exact ⟨Bool.eq_true_of_not_eq_false hne, decide_eq_true hheld'⟩
    obtain ⟨t, ht, hrewritten⟩ := scheduleIn_spec h hp hnode hevictable false
    refine ⟨t, true, ?_, hrewritten, fun _ => rfl⟩
    rw [scheduleAccepted, bind_ok (getPage_eq hp), onlyIf_true (by rw [Bool.eq_false_iff.2 hheld]; rfl), ht]

theorem scheduleAllAccepted_spec (h : P.Inv s) (hlast : isLast = false ↔ lvl + 1 < P.numCacheLevels)
    (hnodup : ids.Nodup)
    (hids : ∀ id ∈ ids, ∃ p, s.page id = some p ∧ p.nodeRef = false ∧ p.cacheLevel = lvl ∧ Movable p) :
    ∃ t, ids.forM (P.scheduleAccepted lvl isLast) s = .ok ⟨⟩ t ∧
      P.RewrittenAll (fun p q => ∃ b, q = { p with nodeRef := b } ∧ (P.isEvictable p = true → b = true)) s ids t := by
  refine forM_rewrite (fun {s id p} hs hp hpre => ?_) h hnodup hids
  obtain ⟨hnode, rfl, hmovable⟩ := hpre
  obtain ⟨t, b, ht, hrewritten, hb⟩ := scheduleAccepted_spec hs hp hnode hmovable hlast
  exact ⟨t, _, ht, hrewritten, b, rfl, hb⟩

/-- The pages `ids` of pool group `g` arrived at level `lvl`, where those that can be evicted are queued. -/
structure Arrived (P : StorageParams T) (lvl g : Nat) (ids : List PageId) (s t : Storage T) : Prop where
  frame : Frame lvl (· ∈ ids) s t
  others : ∀ i, i ∉ ids → t.page i = s.page i
  arrived : ∀ id ∈ ids, ∃ q, t.page id = some q ∧ q.cacheLevel = lvl ∧ (P.isEvictable q = true → q.nodeRef = true)
  groups : ∀ l g', g' ≠ g → t.pool l g' = s.pool l g'
  free : t.free lvl g + ids.length = s.free lvl g
  used : ∀ l < lvl, t.used l g + ids.countP (atLevel s l) ≤ s.used l g

theorem Arrived.nil (P : StorageParams T) (lvl g : Nat) (s : Storage T) : Arrived P lvl g [] s s where
  frame := .refl _ _ s
  others := fun _ _ => rfl
  arrived := nofun
  groups := fun _ _ _ => rfl
  free := rfl
  used := fun _ _ => le_rfl

theorem Arrived.append (h : Arrived P lvl g ids s t) (h' : Arrived P lvl g ids' t u)
    (hdisjoint : ∀ id ∈ ids, id ∉ ids') : Arrived P lvl g (ids ++ ids') s u where
  frame := (h.frame.mono le_rfl fun i hi => mem_append_left _ hi).trans (h'.frame.mono le_rfl fun i hi => mem_append_right _ hi)
  others := by
    intro i hi
    rw [mem_append, not_or] at hi
    rw [h'.others i hi.2, h.others i hi.1]
  arrived := by
    intro id hid
    rcases mem_append.1 hid with hid | hid
    · obtain ⟨q, hq, hlevel⟩ := h.arrived id hid
      exact ⟨q, by rw [h'.others id (hdisjoint id hid), hq], hlevel⟩
    · exact h'.arrived id hid
  groups := fun l g' hne => (h'.groups l g' hne).trans (h.groups l g' hne)
  free := by
    have := h.free
    have := h'.free
    rw [length_append]
    omega
  used := by
    intro l hl
    have hfirst := h.used l hl
    have hsecond := h'.used l hl
    have hcount := countP_atLevel_congr (fun i hi => h.others i fun hmem => hdisjoint i hmem hi) l
    rw [countP_append]
    omega

variable (h : Migrated g dst src ids s t) (hne : src ≠ dst)

include h hne

theorem Migrated.pools (l g' : Nat) :
    (l = dst ∧ g' = g ∧ (t.pool l g').numFreeSlots + ids.length = (s.pool l g').numFreeSlots ∧
        (t.pool l g').capacity = (s.pool l g').capacity ∧
        (t.pool l g').targetCapacity = (s.pool l g').targetCapacity) ∨
      (l = src ∧ g' = g ∧ PoolFreed (s.pool l g') (t.pool l g') ids.length) ∨
      (¬ (l = src ∧ g' = g) ∧ ¬ (l = dst ∧ g' = g) ∧ t.pool l g' = s.pool l g') := by
  obtain ⟨slots, b, hlen, hb, hfreed, hpools⟩ := h.pool
  by_cases hsrc : l = src ∧ g' = g
  · refine .inr (.inl ⟨hsrc.1, hsrc.2, ?_⟩)
    rw [pool_setPool, if_neg fun heq => hne heq.1] at hfreed
    rw [hsrc.1, hsrc.2]
    exact hfreed
  · rw [hpools l g' hsrc, pool_setPool]
    by_cases hdst : l = dst ∧ g' = g
    · rw [if_pos hdst, hdst.1, hdst.2]
      exact .inl ⟨rfl, rfl, hlen ▸ hb.free, hb.capacity, hb.target⟩
    · rw [if_neg hdst]
      exact .inr (.inr ⟨hsrc, hdst, rfl⟩)

theorem Migrated.sizes (l g' : Nat) : (t.pool l g').capacity = (s.pool l g').capacity ∧
      (t.pool l g').targetCapacity = (s.pool l g').targetCapacity := by
  rcases h.pools hne l g' with ⟨_, _, _, hcapacity, htarget⟩ | ⟨_, _, hfreed⟩ | ⟨_, _, hsame⟩
  · exact ⟨hcapacity, htarget⟩
  · exact ⟨hfreed.capacity, hfreed.target⟩
  · rw [hsame]
    exact ⟨rfl, rfl⟩

omit h hne

theorem Migrated.arrived (h : Migrated g lvl src ids s t) (hsrc : src < lvl)
    (hids : ∀ id ∈ ids, ∃ p, s.page id = some p ∧ p.cacheLevel = src) (hpool : u.pool = t.pool)
    (hothers : ∀ i, i ∉ ids → u.page i = t.page i)
    (hqueued : ∀ id ∈ ids, ∀ p, t.page id = some p → ∃ b, u.page id = some { p with nodeRef := b } ∧
      (P.isEvictable p = true → b = true)) :
    Arrived P lvl g ids s u := by
  have hsame : ∀ i, i ∉ ids → u.page i = s.page i := fun i hi => (hothers i hi).trans (h.others i hi)
  have hmoved : ∀ id ∈ ids, ∃ p slot b, s.page id = some p ∧ p.cacheLevel = src ∧
      u.page id = some { p with cacheLevel := lvl, slot := slot, nodeRef := b } ∧
      (P.isEvictable { p with cacheLevel := lvl, slot := slot, nodeRef := b } = true → b = true) := by
    intro id hid
    obtain ⟨p, hp, hlevel⟩ := hids id hid
    obtain ⟨slot, hslot⟩ := h.moved id hid p hp
    obtain ⟨b, hb, htrue⟩ := hqueued id hid _ hslot
    exact ⟨p, slot, b, hp, hlevel, hb, htrue⟩
  have hpools := h.pools hsrc.ne
  have hsizes := h.sizes hsrc.ne
  have hfreed : ∀ l g', l < lvl → ∃ n, PoolFreed (s.pool l g') (t.pool l g') n := by
    intro l g' hl
    rcases hpools l g' with ⟨heq, _⟩ | ⟨_, _, hfreed⟩ | ⟨_, _, hsame⟩
    · exact absurd heq hl.ne
    · exact ⟨_, hfreed⟩
    · exact ⟨0, hsame ▸ .refl _⟩
  rw [← hpool] at hpools hsizes hfreed
  refine ⟨⟨?_, ?_, ?_, fun l g' => (hsizes l g').1, fun l g' => (hsizes l g').2,
    fun l g' hl => (hfreed l g' hl).choose_spec.free, fun l g' hl => (hfreed l g' hl).choose_spec.used_le⟩,
    hsame, ?_, ?_, ?_, ?_⟩
  · intro id q hq
    by_cases hid : id ∈ ids
    · obtain ⟨p, slot, b, hp, hlevel, hpage, _⟩ := hmoved id hid
      rw [hpage] at hq
      cases hq
      exact ⟨p, hp, rfl, rfl, rfl, rfl, rfl, hlevel ▸ hsrc.le⟩
    · exact ⟨q, by rw [← hsame id hid, hq], .refl q⟩
  · intro id p hp hnone
    by_cases hid : id ∈ ids
    · obtain ⟨_, _, _, _, _, hpage, _⟩ := hmoved id hid
      rw [hpage] at hnone
      cases hnone
    · rw [hsame id hid, hp] at hnone
      cases hnone
  · intro id p q hp hq hid _
    rw [hsame id hid, hp] at hq
    cases hq
    rfl
  · intro id hid
    obtain ⟨_, _, _, _, _, hpage, htrue⟩ := hmoved id hid
    exact ⟨_, hpage, rfl, htrue⟩
  · intro l g' hne
    rcases hpools l g' with ⟨_, hg, _⟩ | ⟨_, hg, _⟩ | ⟨_, _, heq⟩
    · exact absurd hg hne
    · exact absurd hg hne
    · exact heq
  · rcases hpools lvl g with ⟨_, _, hfree, _⟩ | ⟨heq, _⟩ | ⟨_, hno, _⟩
    · exact hfree
    · exact absurd heq hsrc.ne'
    · exact absurd ⟨rfl, rfl⟩ hno
  · intro l hl
    rcases hpools l g with ⟨hdst, _⟩ | ⟨_, _, hfreed⟩ | ⟨hno, _, heq⟩
    · exact absurd hl hdst.ge.not_gt
    · have hused := hfreed.used
      have hcount := countP_le_length (p := atLevel s l) (l := ids)
      rw [Storage.used, Storage.used]
      omega
    · have hnone : ids.countP (atLevel s l) = 0 := by
        rw [countP_eq_zero]
        intro id hid hat
        obtain ⟨p, hp, hlevel⟩ := hids id hid
        rw [atLevel_eq hp] at hat
        exact hno ⟨(of_decide_eq_true hat).symm.trans hlevel, rfl⟩
      rw [hnone, Storage.used, Storage.used, heq, add_zero]

theorem Arrived.perm (h : Arrived P lvl g ids s t) (hperm : ids.Perm ids') : Arrived P lvl g ids' s t where
  frame := h.frame.mono le_rfl fun _ => hperm.mem_iff.1
  others := fun i hi => h.others i fun hmem => hi (hperm.mem_iff.1 hmem)
  arrived := fun id hid => h.arrived id (hperm.mem_iff.2 hid)
  groups := h.groups
  free := hperm.length_eq ▸ h.free
  used := fun l hl => hperm.countP_eq (atLevel s l) ▸ h.used l hl

/-- What can be said of the pages of a list when the function that has it raises. -/
def Adrift (lvl : Nat) (id : PageId) (t : Storage T) : Prop := ∀ q, t.page id = some q → lvl ≤ q.cacheLevel ∨ q.nodeRef = false

theorem Transit.adrift {lvl' : Nat} (h : Transit P s lvl g ids) (hid : id ∈ ids) : Adrift lvl' id s := by
  intro q hq
  obtain ⟨p, hp, hnode, _⟩ := h.mem hid
  cases hp.symm.trans hq
  exact .inr hnode

theorem Arrived.adrift {lvl' : Nat} {X : PageId → Prop} (h : Arrived P lvl g ids s t)
    (hframe : Frame lvl' X t u) (hid : id ∈ ids) : Adrift lvl id u := by
  intro q hq
  obtain ⟨p, hp, hlevel, _⟩ := h.arrived id hid
  exact .inl (hlevel ▸ (hframe.follows hp hq).level)

variable (hlvl : lvl < P.numCacheLevels) (hlast : isLast = false ↔ lvl + 1 < P.numCacheLevels)

include hlvl hlast

/-- One group of pages with a common source moves to `lvl`, or there is no room and nothing happens. -/
theorem migrateGroup_spec (h : P.Inv s) (hids : Transit P s lvl g ids)
    (hsrc : ∀ id ∈ ids, P.sourceOf s id = (src, g)) (hne : ids ≠ []) :
    Ends (P.migrateGroup lvl isLast ((src, g), ids) s) (fun _ t => P.Inv t ∧ Arrived P lvl g ids s t)
      (fun e t => e = .outOfPages ∧ t = s ∧ s.free lvl g < ids.length) := by
  have hat : ∀ id ∈ ids, ∃ p, s.page id = some p ∧ p.nodeRef = false ∧ p.cacheLevel = src ∧ P.poolGroup p = g ∧ Movable p := by
    intro id hid
    obtain ⟨p, hp, hnode, _, hgroup, hmovable⟩ := hids.mem hid
    have hkey := hsrc id hid
    rw [sourceOf, hp] at hkey
    exact ⟨p, hp, hnode, (Prod.mk.inj hkey).1, hgroup, hmovable⟩
  have hsrclt : src < lvl := by
    obtain ⟨id, hid⟩ := exists_mem_of_ne_nil ids hne
    obtain ⟨p, hp, _, hlevel, _⟩ := hat id hid
    obtain ⟨p', hp', _, hlt, _⟩ := hids.mem hid
    cases hp.symm.trans hp'
    exact hlevel ▸ hlt
  have hlevels : (false || lvl ≠ src) = true := by
    exact decide_eq_true hsrclt.ne'
  have hmigrate := batchedMigrate_spec h hlvl hlevels (.inl hids.nodup) fun id hid => by
    obtain ⟨p, hp, hnode, hlevel, hgroup, _⟩ := hat id hid
    exact ⟨p, hp, hlevel, hgroup, fun hqueued => by rw [hnode] at hqueued; cases hqueued⟩
  refine hmigrate.bind (fun _ t ht => ?_) fun _ _ he => he
  obtain ⟨hinv, hmoved⟩ := ht
  obtain ⟨u, hu, hend, hpool, hothers, hqueued⟩ := scheduleAllAccepted_spec hinv hlast hids.nodup fun id hid => by
    obtain ⟨p, hp, hnode, _, _, hmovable⟩ := hat id hid
    obtain ⟨slot, hslot⟩ := hmoved.moved id hid p hp
    exact ⟨_, hslot, hnode, rfl, hmovable⟩
  refine .of_ok hu ⟨hend, hmoved.arrived hsrclt (fun id hid => ?_) hpool hothers fun id hid p hp => ?_⟩
  · obtain ⟨p, hp, _, hlevel, _⟩ := hat id hid
    exact ⟨p, hp, hlevel⟩
  · obtain ⟨_, hq, b, rfl, hb⟩ := hqueued id hid p hp
    exact ⟨b, hq, hb⟩

theorem migrateGroups_spec {groups : List ((Nat × Nat) × List PageId)} {s₀ : Storage T} (h : P.Inv s)
    (hids : Transit P s lvl g (groups.flatMap snd))
    (hpage : ∀ id ∈ groups.flatMap snd, s.page id = s₀.page id)
    (hkeys : ∀ group ∈ groups, group.2 ≠ [] ∧ ∀ id ∈ group.2, P.sourceOf s₀ id = group.1) :
    Ends (groups.forM (P.migrateGroup lvl isLast) s)
      (fun _ t => P.Inv t ∧ Arrived P lvl g (groups.flatMap snd) s t)
      (fun e t => P.Inv t ∧ Frame lvl (· ∈ groups.flatMap snd) s t ∧
        (∀ id ∈ groups.flatMap snd, Adrift lvl id t) ∧ e = .outOfPages ∧
        s.free lvl g < (groups.flatMap snd).length) := by
  induction groups generalizing s with
  | nil => exact ⟨h, .nil P lvl g s⟩
  | cons group groups ih =>
    obtain ⟨⟨src, g₀⟩, ids⟩ := group
    obtain ⟨hne, hsource⟩ := hkeys ((src, g₀), ids) (.head _)
    have hmine : Transit P s lvl g ids := hids.sublist (sublist_append_left _ _)
    have hrest : Transit P s lvl g (groups.flatMap snd) := hids.sublist (sublist_append_right _ _)
    have hdisjoint : ∀ id ∈ ids, id ∉ groups.flatMap snd := fun id hid hid' =>
      (nodup_append.1 hids.nodup).2.2 id hid id hid' rfl
    have hsrc : ∀ id ∈ ids, P.sourceOf s id = (src, g₀) := by
      intro id hid
      rw [sourceOf, hpage id (mem_append_left _ hid)]
      exact hsource id hid
    have hgroup : g₀ = g := by
      obtain ⟨id, hid⟩ := exists_mem_of_ne_nil ids hne
      obtain ⟨p, hp, _, _, hg, _⟩ := hmine.mem hid
      have hkey := hsrc id hid
      rw [sourceOf, hp] at hkey
      exact (Prod.mk.inj hkey).2.symm.trans hg
    subst hgroup
    have hfirst := migrateGroup_spec hlvl hlast h hmine hsrc hne
    refine hfirst.bind (fun _ t ht => ?_) fun e t he => ?_
    · obtain ⟨hinv, harrived⟩ := ht
      have hothers : ∀ id ∈ groups.flatMap snd, t.page id = s.page id := fun id hid =>
        harrived.others id fun hmem => hdisjoint id hmem hid
      refine (ih hinv (hrest.congr hothers) (fun id hid => ?_) fun group hgroup => ?_).mono (fun _ u hu => ?_) fun e u hu => ?_
      · rw [hothers id hid, hpage id (mem_append_right _ hid)]
      · exact hkeys group (.tail _ hgroup)
      · exact ⟨hu.1, harrived.append hu.2 hdisjoint⟩
      obtain ⟨hend, hframe, hadrift, herr, hshort⟩ := hu
      refine ⟨hend, ?_, forall_mem_append.2 ⟨fun _ => harrived.adrift hframe, hadrift⟩, herr, ?_⟩
      · exact (harrived.frame.mono le_rfl fun i hi => mem_append_left _ hi).trans
          (hframe.mono le_rfl fun i hi => mem_append_right _ hi)
      · have hfree := harrived.free
        rw [flatMap_cons, length_append]
        change s.free lvl g₀ < ids.length + (groups.flatMap snd).length
        omega
    · obtain ⟨herr, rfl, hshort⟩ := he
      refine ⟨h, .refl _ _ t, fun id => hids.adrift, herr, ?_⟩
      rw [flatMap_cons, length_append]
      change t.free lvl g₀ < ids.length + (groups.flatMap snd).length
      omega

theorem migrateAccepted_spec (h : P.Inv s) (hids : Transit P s lvl g ids) :
    Ends (P.migrateAccepted lvl isLast ids s) (fun _ t => P.Inv t ∧ Arrived P lvl g ids s t)
      (fun e t => P.Inv t ∧ Frame lvl (· ∈ ids) s t ∧ (∀ id ∈ ids, Adrift lvl id t) ∧ e = .outOfPages ∧
        s.free lvl g < ids.length) := by
  obtain ⟨hperm, hgroups⟩ := partition_spec (P.sourceOf s) ids
  refine (migrateGroups_spec hlvl hlast h (hids.perm hperm) (fun _ _ => rfl) hgroups).mono (fun _ t ht => ?_) fun e t ht => ?_
  · exact ⟨ht.1, ht.2.perm hperm⟩
  · obtain ⟨hinv, hframe, hadrift, herr, hshort⟩ := ht
    exact ⟨hinv, hframe.mono le_rfl fun _ => hperm.mem_iff.1,
      fun id hid => hadrift id (hperm.mem_iff.2 hid), herr, hperm.length_eq ▸ hshort⟩

end TrtLlm.KvCache.StorageParams
