import TrtLlm.KvCache.Storage.Commit

/-!
# Taking slots and bringing pages up

Programs that keep the invariant wherever they start can be put one after another. The two programs that bring pages
to a level take them out of their queues first, so in between only the running function keeps track of them.
-/

namespace TrtLlm.KvCache.StorageParams

open List Prod

variable {T : Type} {P : StorageParams T}

/-! ### Programs that keep the invariant from every state -/

/-- The program keeps the invariant and the sizes, and if it returns also the queues. -/
def Safe {α : Type} (P : StorageParams T) (m : StorageM T α) : Prop :=
  ∀ s, P.Inv s → Ends (m s) (fun _ t => Keeps P s t) (fun _ t => Kept P s t)

namespace Safe

variable {α β : Type}

theorem pure (a : α) : Safe P (pure a : StorageM T α) := fun _ => .refl

theorem get : Safe P (get : StorageM T (Storage T)) := fun _ => .refl

theorem bind {m : StorageM T α} {f : α → StorageM T β} (hm : Safe P m) (hf : ∀ a, Safe P (f a)) : Safe P (m >>= f) := by
  intro s h
  refine (hm s h).bind (fun a t hkeeps => ?_) fun _ _ hkept => hkept
  exact (hf a t hkeeps.inv).mono (fun _ _ => hkeeps.trans) fun _ _ => hkeeps.toKept.trans

theorem check (cond : Bool) (error : StorageError) : Safe P (check cond error : StorageM T PUnit) := by
  intro s h
  cases cond with
  | true => exact .refl h
  | false => exact .refl h

theorem onlyIf {m : StorageM T PUnit} (cond : Bool) (hm : Safe P m) : Safe P (onlyIf cond m) := by
  cases cond with
  | true => exact hm
  | false => exact .pure _

end Safe

/-! ### Room and slots -/

variable {s t u : Storage T} {ids : List PageId} {dst level : Nat} {X : PageId → Prop}

theorem prepareFreeSlots_spec (h : P.Inv s) (hlevel : level < P.numCacheLevels) (need : Nat → Int) :
    Ends (P.prepareFreeSlots level need s)
      (fun _ t => Prepared P (goalsAt level need) level (fun _ => False) (fun _ => []) s t)
      (fun e t => P.Failed (goalsAt level need) level (fun _ => []) e s t) := by
  have hnone : Listed (fun _ => []) = fun _ => False := by
    funext id
    simp [Listed]
  have hbelow : level + (P.numCacheLevels - 1 - level) + 1 = P.numCacheLevels := by omega
  have hprepare := prepareAt_spec (goalsAt level need) h hbelow ⟨fun g => .nil s level g, fun _ _ => rfl⟩
  rw [LevelEnds, hnone] at hprepare
  rw [prepareFreeSlots, bind_ok (check_eq (decide_eq_true hlevel))]
  exact hprepare.bind (fun _ _ hdone => hdone.2) fun _ _ hfailed => hfailed

theorem Prepared.keeps {goals : Nat → Nat → Int} {lvl : Nat} {fallen : Nat → List PageId}
    (h : Prepared P goals lvl (fun _ => False) fallen s t) : Keeps P s t :=
  ⟨.of_frame h.inv h.frame, fun Y hcomplete => h.queued Y (hcomplete.mono fun _ => .inl)⟩

theorem prepareFreeSlots_safe (level : Nat) (need : Nat → Int) : Safe P (P.prepareFreeSlots level need) := by
  intro s h
  by_cases hlevel : level < P.numCacheLevels
  · apply (prepareFreeSlots_spec h hlevel need).mono
    · exact fun _ t hprepared => hprepared.keeps
    · exact fun _ t hfailed => .of_frame hfailed.inv hfailed.frame
  · have hraise : P.prepareFreeSlots level need s = .error .indexError s := by
      rw [prepareFreeSlots, bind_error (check_error (decide_eq_false hlevel))]
    exact .of_error hraise (.refl h)

theorem allocateFrom_safe (l g n : Nat) : Safe P (P.allocateFrom l g n) := by
  intro s h
  cases hrun : (s.pool l g).allocateMultiple (fun i => P.complete (s.time + i)) n with
  | error e => exact .of_error (by rw [allocateFrom, hrun]) (.refl h)
  | ok allocated =>
    obtain ⟨slots, b⟩ := allocated
    have hb := (h.slots.pools l g).allocateMultiple_spec _ _ hrun
    refine .of_ok (by rw [allocateFrom, hrun]) ⟨⟨(h.allocate hb n).1, ?_, ?_⟩, fun _ hcomplete => hcomplete⟩
    · exact forall_pool_setPool (R := fun l g b => b.capacity = (s.pool l g).capacity) (fun _ _ => rfl) hb.capacity
    · exact forall_pool_setPool (R := fun l g b => b.targetCapacity = (s.pool l g).targetCapacity) (fun _ _ => rfl) hb.target

theorem allocateAll_safe (level : Nat) (numSlots : Nat → Nat) (lcs : List Nat) : Safe P (P.allocateAll level numSlots lcs) := by
  induction lcs with
  | nil => exact .pure _
  | cons lc lcs ih => exact (allocateFrom_safe _ _ _).bind fun _ => ih.bind fun _ => .pure _

theorem newSlots_safe (level : Nat) (numSlots : Nat → Nat) : Safe P (P.newSlots level numSlots) := by
  apply (Safe.check _ _).bind
  intro _
  apply Safe.get.bind
  intro s
  apply ((prepareFreeSlots_safe level _).onlyIf _).bind
  intro _
  apply Safe.get.bind
  intro t
  exact (Safe.check _ _).bind fun _ => allocateAll_safe level numSlots _

theorem newSlotsForPoolGroup_safe (level pg numSlots : Nat) : Safe P (P.newSlotsForPoolGroup level pg numSlots) := by
  apply (Safe.check _ _).bind
  intro _
  apply Safe.get.bind
  intro s
  apply ((prepareFreeSlots_safe level _).onlyIf _).bind
  intro _
  apply Safe.get.bind
  intro t
  exact (Safe.check _ _).bind fun _ => allocateFrom_safe level pg numSlots

theorem releaseSlot_keeps (h : P.Inv s) {lifeCycle : Nat} {slot : Slot}
    (hloose : Loose P s level (P.lifeCycleGrouping lifeCycle) slot.slotId) :
    ∃ t, P.releaseSlot lifeCycle level slot s = .ok ⟨⟩ t ∧ Keeps P s t := by
  generalize hg : P.lifeCycleGrouping lifeCycle = g at hloose
  obtain ⟨a, hok, ha, hocc, hfreed⟩ := releaseTo_spec P slot (h.slots.pools level g) hloose.1
  choose n hpools using hfreed.setPool
  exact ⟨(s.setPool level g a).tick 1, by rw [releaseSlot, hg, hok], ⟨h.free hloose ha hocc 1,
    fun l' g' => (hpools l' g').capacity, fun l' g' => (hpools l' g').target⟩, fun _ hcomplete => hcomplete⟩

/-! ### Pages that are brought to a level -/

structure Taken (ids : List PageId) (s t : Storage T) : Prop where
  pool : t.pool = s.pool
  mine : ∀ id ∈ ids, ∀ p, s.page id = some p → t.page id = some { p with nodeRef := false }
  others : ∀ i, i ∉ ids → t.page i = s.page i

theorem excludeAllQueued_spec (h : P.Inv s) (hnodup : ids.Nodup) (halive : ∀ id ∈ ids, ∃ p, s.page id = some p) :
    ∃ t, ids.forM P.excludeQueued s = .ok ⟨⟩ t ∧ P.Inv t ∧ Taken ids s t := by
  have hround : ∀ {s : Storage T} {id p}, P.Inv s → s.page id = some p → True → ∃ t q, P.excludeQueued id s = .ok ⟨⟩ t ∧
      P.Rewritten s id q t ∧ q = { p with nodeRef := false } := by
    intro s id p hs hp _
    obtain ⟨t, ht, hrewritten⟩ := excludeIfQueued_spec hs hp
    exact ⟨t, _, by rw [excludeQueued, bind_ok (getPage_eq hp), ht], hrewritten, rfl⟩
  obtain ⟨t, ht, hend, hpool, hothers, hmine⟩ := forM_rewrite hround h hnodup fun id hid =>
    (halive id hid).imp fun p hp => ⟨hp, trivial⟩
  refine ⟨t, ht, hend, hpool, fun id hid p hp => ?_, hothers⟩
  obtain ⟨_, hq, rfl⟩ := hmine id hid p hp
  exact hq

theorem Taken.complete (h : Taken ids s t) (hcomplete : P.Complete X s) : P.Complete (fun i => X i ∨ i ∈ ids) t := by
  intro i q hq hX
  rw [not_or] at hX
  rw [h.others i hX.2] at hq
  exact hcomplete i q hq hX.1

/-- The pages of the list are out of the queues, each at level `dst` or where it was. -/
structure Brought (P : StorageParams T) (dst : Nat) (ids : List PageId) (s t : Storage T) : Prop where
  kept : Kept P s t
  mine : ∀ id ∈ ids, ∀ p, s.page id = some p → ∃ l slot, t.page id = some { p with cacheLevel := l, slot := slot } ∧
    (l = dst ∨ l = p.cacheLevel)
  others : ∀ i, i ∉ ids → t.page i = s.page i

theorem Brought.refl (h : P.Inv s) (dst : Nat) (ids : List PageId) : Brought P dst ids s s :=
  ⟨.refl h, fun _ _ p hp => ⟨p.cacheLevel, p.slot, hp, .inr rfl⟩, fun _ _ => rfl⟩

theorem Brought.append {ids' : List PageId} (h : Brought P dst ids s t)
    (h' : Brought P dst ids' t u) (hdisjoint : ∀ id ∈ ids, id ∉ ids') : Brought P dst (ids ++ ids') s u where
  kept := h.kept.trans h'.kept
  mine := by
    intro id hid p hp
    by_cases hmem : id ∈ ids
    · rw [h'.others id (hdisjoint id hmem)]
      exact h.mine id hmem p hp
    · have hid' := (mem_append.1 hid).resolve_left hmem
      exact h'.mine id hid' p (by rw [h.others id hmem, hp])
  others := by
    intro i hi
    rw [mem_append, not_or] at hi
    rw [h'.others i hi.2, h.others i hi.1]

theorem Brought.complete (h : Brought P dst ids s t) (hcomplete : P.Complete (fun i => X i ∨ i ∈ ids) s) :
    P.Complete (fun i => X i ∨ i ∈ ids) t := by
  intro i q hq hX
  rw [h.others i fun hi => hX (.inr hi)] at hq
  exact hcomplete i q hq hX

variable {group : (Nat × Nat) × List PageId}

theorem bringGroup_spec (h : P.Inv s) (hdst : dst < P.numCacheLevels) (hnodup : group.2.Nodup)
    (hids : ∀ id ∈ group.2, ∃ p, s.page id = some p ∧ (p.cacheLevel, P.poolGroup p) = group.1 ∧ p.nodeRef = false) :
    Ends (onlyIf (group.1.1 ≠ dst) (P.batchedMigrate group.1.2 dst group.1.1 group.2 false) s)
      (fun _ t => Brought P dst group.2 s t ∧ ∀ id ∈ group.2, ∀ q, t.page id = some q → q.cacheLevel = dst)
      (fun _ t => t = s) := by
  by_cases hne : group.1.1 ≠ dst
  · rw [onlyIf_true (decide_eq_true hne)]
    have hlevels : (false || dst ≠ group.1.1) = true := by simpa using hne.symm
    have hmigrate := batchedMigrate_spec h hdst hlevels (.inl hnodup) (fun id hid => by
        obtain ⟨p, hp, hkey, hnode⟩ := hids id hid
        refine ⟨p, hp, congrArg fst hkey, congrArg snd hkey, fun hyes => ?_⟩
        rw [hnode] at hyes
        cases hyes)
    apply hmigrate.mono
    · rintro _ t ⟨hinv, hmoved⟩
      refine ⟨⟨⟨hinv, fun l g => (hmoved.sizes hne l g).1, fun l g => (hmoved.sizes hne l g).2⟩,
        fun id hid p hp => ?_, hmoved.others⟩, fun id hid q hq => ?_⟩
      · obtain ⟨slot, hslot⟩ := hmoved.moved id hid p hp
        exact ⟨dst, slot, hslot, .inl rfl⟩
      obtain ⟨p, hp, _⟩ := hids id hid
      obtain ⟨slot, hslot⟩ := hmoved.moved id hid p hp
      rw [hslot] at hq
      cases hq
      rfl
    · exact fun _ t hsame => hsame.2.1
  · refine .of_ok (onlyIf_false (decide_eq_false hne)) ⟨.refl h dst _, fun id hid q hq => ?_⟩
    obtain ⟨p, hp, hkey, _⟩ := hids id hid
    cases hp.symm.trans hq
    rw [not_not] at hne
    rw [← hne, ← hkey]

theorem bringTo_spec (hdst : dst < P.numCacheLevels) {groups : List ((Nat × Nat) × List PageId)} (h : P.Inv s)
    (hnodup : (groups.flatMap snd).Nodup)
    (hids : ∀ group ∈ groups, ∀ id ∈ group.2, ∃ p, s.page id = some p ∧ (p.cacheLevel, P.poolGroup p) = group.1 ∧
      p.nodeRef = false) :
    Ends (P.bringTo dst groups s)
      (fun _ t => Brought P dst (groups.flatMap snd) s t ∧
        ∀ id ∈ groups.flatMap snd, ∀ q, t.page id = some q → q.cacheLevel = dst)
      (fun _ t => Brought P dst (groups.flatMap snd) s t) := by
  induction groups generalizing s with
  | nil => exact .of_ok rfl ⟨.refl h dst [], nofun⟩
  | cons group groups ih =>
    obtain ⟨hfirst, hrest, hdisjoint⟩ := nodup_append.1 hnodup
    have hapart : ∀ id ∈ group.2, id ∉ groups.flatMap snd := fun id hid hid' => hdisjoint id hid id hid' rfl
    refine (bringGroup_spec h hdst hfirst (hids group (by simp))).bind (fun _ t ht => ?_) fun _ t ht => ?_
    · obtain ⟨hone, harrived⟩ := ht
      have hids' : ∀ group' ∈ groups, ∀ id ∈ group'.2, ∃ p, t.page id = some p ∧
          (p.cacheLevel, P.poolGroup p) = group'.1 ∧ p.nodeRef = false := by
        intro group' hgroup' id hid
        rw [hone.others id fun hmem => hapart id hmem (mem_flatMap.2 ⟨group', hgroup', hid⟩)]
        exact hids group' (by simp [hgroup']) id hid
      apply (ih hone.kept.inv hrest hids').mono
      · rintro _ u ⟨hmany, harrived'⟩
        refine ⟨hone.append hmany hapart, fun id hid q hq => ?_⟩
        by_cases hmem : id ∈ group.2
        · rw [hmany.others id (hapart id hmem)] at hq
          exact harrived id hmem q hq
        · exact harrived' id ((mem_append.1 hid).resolve_left hmem) q hq
      · exact fun _ u hmany => hone.append hmany hapart
    · rw [ht]
      exact .refl h dst _

theorem scheduleAll_spec (h : P.Inv s) (hnodup : ids.Nodup)
    (hids : ∀ id ∈ ids, ∃ p, s.page id = some p ∧ p.nodeRef = false) :
    ∃ t, ids.forM P.scheduleForEviction s = .ok ⟨⟩ t ∧
      P.RewrittenAll (fun p q => q = { p with nodeRef := P.isEvictable p }) s ids t := by
  refine forM_rewrite (fun {s id p} hs hp hnode => ?_) h hnodup hids
  by_cases hevictable : P.isEvictable p = true
  · obtain ⟨t, ht, hrewritten⟩ := scheduleForEviction_of_evictable hs hp hnode hevictable
    exact ⟨t, _, ht, hrewritten, by rw [hevictable]⟩
  · have hno := Bool.eq_false_iff.2 hevictable
    refine ⟨s, p, scheduleForEviction_of_not hp hno, ⟨hs, rfl, (page_setPage_self hp).symm⟩, ?_⟩
    rw [hno, ← hnode]

theorem lockAll_spec (h : P.Inv s) (hnodup : ids.Nodup) (hids : ∀ id ∈ ids, ∃ p, s.page id = some p ∧ p.cacheLevel = 0) :
    ∃ t, ids.forM P.lock s = .ok ⟨⟩ t ∧ Kept P s t ∧
      ∀ X : PageId → Prop, P.Complete (fun i => X i ∨ i ∈ ids) s → P.Complete X t := by
  induction ids generalizing s with
  | nil => exact ⟨s, rfl, .refl h, fun X hcomplete => hcomplete.mono (by simp)⟩
  | cons id ids ih =>
    obtain ⟨hid, hids'⟩ := nodup_cons.1 hnodup
    obtain ⟨p, hp, hlevel⟩ := hids id (by simp)
    obtain ⟨u, hu, hinv, hpool, hpage⟩ := lock_spec h hp hlevel
    obtain ⟨t, ht, hkept, hqueued⟩ := ih hinv hids' fun i hi => by
      have hne : i ≠ id := fun heq => hid (heq ▸ hi)
      simpa [hpage, hne] using hids i (by simp [hi])
    refine ⟨t, by rw [forM_cons_ok hu, ht], (Kept.of_pool hinv hpool).trans hkept, fun X hcomplete => hqueued X ?_⟩
    refine .lock (hcomplete.mono fun i hi => ?_) hpage
    rw [mem_cons] at hi
    tauto

/-- The pages of the list, on their way between `s` and `t`: out of the queues, at some level. -/
structure Fetched (P : StorageParams T) (ids : List PageId) (s t : Storage T) : Prop where
  kept : Kept P s t
  mine : ∀ id ∈ ids, ∀ p, s.page id = some p →
    ∃ l slot b, t.page id = some { p with cacheLevel := l, slot := slot, block := b, nodeRef := false }

/-- Room is made at level `dst`, and the pages go there. -/
theorem fetch_spec (h : P.Inv u) (hdst : dst < P.numCacheLevels) (hnodup : ids.Nodup)
    (halive : ∀ id ∈ ids, ∃ p, s.page id = some p) (htaken : Taken ids s u) (need : Nat → Int) {k : StorageM T PUnit}
    (groups : Storage T → List ((Nat × Nat) × List PageId)) (hk : ∀ v, k v = P.bringTo dst (groups v) v)
    (hgroups : ∀ v, (∀ id ∈ ids, P.sourceOf v id = P.sourceOf s id) → ((groups v).flatMap snd).Perm ids ∧
      ∀ group ∈ groups v, ∀ id ∈ group.2, P.sourceOf v id = group.1) :
    Ends ((P.prepareFreeSlots dst need >>= fun _ => k) u)
      (fun _ t => Fetched P ids s t ∧ (∀ id ∈ ids, ∀ q, t.page id = some q → q.cacheLevel = dst) ∧
        ∀ X, P.Complete X s → P.Complete (fun i => X i ∨ i ∈ ids) t)
      (fun _ t => Fetched P ids s t) := by
  have hstart : Kept P s u := .of_pool h htaken.pool
  have hstay : ∀ {v : Storage T} {lvl : Nat}, Frame lvl (fun _ => False) u v → ∀ id ∈ ids, ∀ p, s.page id = some p →
      ∃ b, v.page id = some { p with nodeRef := false, block := b } :=
    fun hframe id hid p hp => hframe.stay (htaken.mine id hid p hp) rfl not_false
  refine (prepareFreeSlots_spec h hdst need).bind (fun _ v hprepared => ?_) fun _ v hfailed => ?_
  · have hpages := hstay hprepared.frame
    have hsource : ∀ id ∈ ids, P.sourceOf v id = P.sourceOf s id := by
      intro id hid
      obtain ⟨p, hp⟩ := halive id hid
      obtain ⟨b, hb⟩ := hpages id hid p hp
      rw [sourceOf, sourceOf, hb, hp]
      rfl
    obtain ⟨hperm, hkeys⟩ := hgroups v hsource
    have hkept : Kept P s v := hstart.trans hprepared.keeps.toKept
    have hbring := bringTo_spec hdst hprepared.inv (hperm.nodup_iff.2 hnodup) fun group hgroup id hid => by
      have hmem : id ∈ ids := hperm.mem_iff.1 (mem_flatMap.2 ⟨group, hgroup, hid⟩)
      obtain ⟨p, hp⟩ := halive id hmem
      obtain ⟨b, hb⟩ := hpages id hmem p hp
      have hkey := hkeys group hgroup id hid
      rw [sourceOf, hb] at hkey
      exact ⟨_, hb, hkey, rfl⟩
    have hfetched : ∀ {t}, Brought P dst ((groups v).flatMap snd) v t → Fetched P ids s t := by
      intro t hbrought
      refine ⟨hkept.trans hbrought.kept, fun id hid p hp => ?_⟩
      obtain ⟨b, hb⟩ := hpages id hid p hp
      obtain ⟨l, slot, hmoved, _⟩ := hbrought.mine id (hperm.mem_iff.2 hid) _ hb
      exact ⟨l, slot, b, hmoved⟩
    rw [hk v]
    apply hbring.mono
    · rintro _ t ⟨hbrought, harrived⟩
      refine ⟨hfetched hbrought, fun id hid => harrived id (hperm.mem_iff.2 hid), fun X hcomplete => ?_⟩
      have hthere := hbrought.complete (X := X) ((hprepared.keeps.queued _ (htaken.complete hcomplete)).mono ?_)
      · apply hthere.mono
        intro i hi
        rwa [hperm.mem_iff] at hi
      · intro i hi
        rwa [hperm.mem_iff]
    · exact fun _ t => hfetched
  · refine ⟨hstart.trans (.of_frame hfailed.inv hfailed.frame), fun id hid p hp => ?_⟩
    obtain ⟨b, hb⟩ := hstay (hfailed.frame.mono le_rfl fun _ hlisted => by cases hlisted.choose_spec) id hid p hp
    exact ⟨p.cacheLevel, p.slot, b, hb⟩

theorem Fetched.reschedule {sched : List PageId} (h : Fetched P ids s t) (hnodup : ids.Nodup)
    (halive : ∀ id ∈ ids, ∃ p, s.page id = some p) (hsub : sched.Sublist ids) :
    ∃ u, sched.forM P.scheduleForEviction t = .ok ⟨⟩ u ∧ Kept P s u ∧
      (∀ id ∈ sched, ∀ p, t.page id = some p → u.page id = some { p with nodeRef := P.isEvictable p }) ∧
      ∀ i, i ∉ sched → u.page i = t.page i := by
  obtain ⟨u, hu, hinv, hpool, hothers, hmine⟩ := scheduleAll_spec h.kept.inv (hnodup.sublist hsub) fun id hid => by
    obtain ⟨p, hp⟩ := halive id (hsub.subset hid)
    obtain ⟨l, slot, b, hmoved⟩ := h.mine id (hsub.subset hid) p hp
    exact ⟨_, hmoved, rfl⟩
  refine ⟨u, hu, h.kept.trans (.of_pool hinv hpool), fun id hid p hp => ?_, hothers⟩
  obtain ⟨_, hq, rfl⟩ := hmine id hid p hp
  exact hq

theorem batchedLockToGpu_spec (h : P.Inv s) (hlevels : 0 < P.numCacheLevels) (hnodup : ids.Nodup)
    (halive : ∀ id ∈ ids, ∃ p, s.page id = some p) :
    Ends (P.batchedLockToGpu ids s) (fun _ t => Keeps P s t) (fun _ t => Kept P s t) := by
  obtain ⟨u, hu, hinv, htaken⟩ := excludeAllQueued_spec h hnodup halive
  rw [batchedLockToGpu, get_bind_apply, bind_ok hu]
  have hfetch := fetch_spec hinv hlevels hnodup halive htaken (fun pg => P.numToBring s 0 ids pg)
    (fun v => partition (P.sourceOf v) ids) (fun v => rfl) fun v _ => by
      obtain ⟨hperm, hkeys⟩ := partition_spec (P.sourceOf v) ids
      exact ⟨hperm, fun group hgroup => (hkeys group hgroup).2⟩
  refine .bind (hfetch.onError fun _ t hfetched => ?_) (fun _ t ht => ?_) fun _ _ hkept => hkept
  · obtain ⟨v, hv, hkept, _⟩ := hfetched.reschedule hnodup halive filter_sublist
    exact .of_ok hv hkept
  obtain ⟨hfetched, harrived, hqueued⟩ := ht
  obtain ⟨v, hv, hkept, hlocked⟩ := lockAll_spec hfetched.kept.inv hnodup fun id hid => by
    obtain ⟨p, hp⟩ := halive id hid
    obtain ⟨l, slot, b, hmoved⟩ := hfetched.mine id hid p hp
    exact ⟨_, hmoved, harrived id hid _ hmoved⟩
  exact .of_ok hv ⟨hfetched.kept.trans hkept, fun X hcomplete => hlocked X (hqueued X hcomplete)⟩

theorem byPoolGroupAndLevel_perm (hnodup : ids.Nodup)
    (hids : ∀ id ∈ ids, (P.sourceOf s id).1 < P.numCacheLevels ∧ (P.sourceOf s id).2 < P.numPoolGroups) :
    ((P.byPoolGroupAndLevel s ids).flatMap snd).Perm ids := by
  have hflat : (P.byPoolGroupAndLevel s ids).flatMap snd = P.poolGroups.flatMap fun pg =>
      (List.range P.numCacheLevels).flatMap fun lvl => ids.filter (P.sourceOf s · = (lvl, pg)) := by
    simp only [byPoolGroupAndLevel, flatMap_assoc, flatMap_map]
  rw [hflat, perm_ext_iff_of_nodup ?_ hnodup]
  · intro id
    simp only [mem_flatMap, mem_filter, mem_range, mem_poolGroups, decide_eq_true_eq]
    constructor
    · rintro ⟨_, _, _, _, hid, _⟩
      exact hid
    · intro hid
      exact ⟨_, (hids id hid).2, _, (hids id hid).1, hid, rfl⟩
  · rw [nodup_flatMap]
    constructor
    · intro pg _
      rw [nodup_flatMap]
      refine ⟨fun lvl _ => hnodup.filter _, nodup_range.imp ?_⟩
      intro l l' hne id hid hid'
      simp only [mem_filter, decide_eq_true_eq] at hid hid'
      exact hne (Prod.mk.inj (hid.2.symm.trans hid'.2)).1
    · refine nodup_range.imp ?_
      intro g g' hne id hid hid'
      simp only [mem_flatMap, mem_filter, decide_eq_true_eq] at hid hid'
      obtain ⟨_, _, _, hkey⟩ := hid
      obtain ⟨_, _, _, hkey'⟩ := hid'
      exact hne (Prod.mk.inj (hkey.symm.trans hkey')).2

theorem prefetch_spec (h : P.Inv s) (hdst : dst < P.numCacheLevels) (hnodup : ids.Nodup)
    (halive : ∀ id ∈ ids, ∃ p, s.page id = some p ∧ P.poolGroup p < P.numPoolGroups) :
    Ends (P.prefetch dst ids s) (fun _ t => Keeps P s t) (fun _ t => Kept P s t) := by
  have hsome : ∀ id ∈ ids, ∃ p, s.page id = some p := fun id hid => (halive id hid).imp fun _ => And.left
  obtain ⟨u, hu, hinv, htaken⟩ := excludeAllQueued_spec h hnodup hsome
  have hperm := byPoolGroupAndLevel_perm hnodup fun id hid => by
    obtain ⟨p, hp, hgroup⟩ := halive id hid
    rw [sourceOf, hp]
    exact ⟨h.slots.level_lt hp, hgroup⟩
  have hfetch := fetch_spec hinv hdst hnodup hsome htaken (fun pg => P.numToBring s dst ids pg)
    (fun _ => P.byPoolGroupAndLevel s ids) (fun v => rfl)
    fun v hsource => by
      refine ⟨hperm, fun group hgroup id hid => ?_⟩
      simp only [byPoolGroupAndLevel, mem_flatMap, mem_map] at hgroup
      obtain ⟨pg, -, lvl, -, rfl⟩ := hgroup
      obtain ⟨hmem, hkey⟩ := mem_filter.1 hid
      simpa [hsource id hmem] using hkey
  have hsub : (P.rescheduled s dst ids).Sublist ids := filter_sublist
  rw [← bind_ok hu (f := fun _ => P.prepareFreeSlots dst (fun pg => P.numToBring s dst ids pg) >>= fun _ =>
    P.bringTo dst (P.byPoolGroupAndLevel s ids))] at hfetch
  rw [prefetch, get_bind_apply]
  refine .bind (hfetch.onError fun _ t hfetched => ?_) (fun _ t ht => ?_) fun _ _ hkept => hkept
  · obtain ⟨v, hv, hkept, _⟩ := hfetched.reschedule hnodup hsome hsub
    exact .of_ok hv hkept
  obtain ⟨hfetched, harrived, hqueued⟩ := ht
  obtain ⟨v, hv, hkept, hmine, hothers⟩ := hfetched.reschedule hnodup hsome hsub
  refine .of_ok hv ⟨hkept, fun X hcomplete i q hq hX hneeds => ?_⟩
  by_cases hi : i ∈ ids
  · obtain ⟨p, hp, _⟩ := halive i hi
    obtain ⟨l, slot, b, hmoved⟩ := hfetched.mine i hi p hp
    obtain rfl : l = dst := harrived i hi _ hmoved
    -- A droppable page of the list was queued at the start.
    have hdrop : p.status = .droppable → p.nodeRef = true := fun hstatus => hcomplete i p hp hX (.inr hstatus)
    by_cases hmem : i ∈ P.rescheduled s l ids
    · rw [hmine i hmem _ hmoved] at hq
      cases hq
      rcases hneeds with hevictable | hstatus
      · exact hevictable
      have hstatus : p.status = .droppable := hstatus
      have hbefore := h.queues.evictable hp (hdrop hstatus)
      rw [isEvictable_droppable hstatus] at hbefore
      exact (isEvictable_droppable (p := { p with
        cacheLevel := l, slot := slot, block := b, nodeRef := false }) hstatus).trans hbefore
    · rw [hothers i hmem, hmoved] at hq
      cases hq
      rw [rescheduled, mem_filter, hp, Option.any_some, Bool.or_eq_true] at hmem
      rcases hneeds with hevictable | hstatus
      · exact absurd ⟨hi, .inr hevictable⟩ hmem
      · exact absurd ⟨hi, .inl (hdrop hstatus)⟩ hmem
  · rw [hothers i fun hmem => hi (hsub.subset hmem)] at hq
    exact hqueued X hcomplete i q hq (not_or.2 ⟨hX, hi⟩) hneeds

theorem Evicted.complete_abandoned {evicted : Nat → List PageId} (h : P.Inv s)
    (hlast : level + 1 = P.numCacheLevels) (hevicted : Evicted P level evicted s t)
    (hshed : Shed (Listed evicted) t u) (hbound : ∀ g, P.numPoolGroups ≤ g → evicted g = [])
    (hleft : ∀ g ∈ P.poolGroups, ∀ id ∈ evicted g, ∀ q, u.page id = some q → ¬ (q.status = .droppable ∧ q.nodeRef = false))
    (hcomplete : P.Complete X s) : P.Complete X u := by
  intro id r hr hX hneeds
  by_cases hlisted : Listed evicted id
  · exfalso
    obtain ⟨g, hid⟩ := hlisted
    obtain ⟨p, hp, hnode, hlevel, _, hq⟩ := hevicted.mem hid
    have hstatus : p.status = .droppable := by
      have hevictable := h.queues.evictable hp hnode
      rw [isEvictable, decide_eq_true_eq] at hevictable
      rcases hevictable with hdrop | hheld
      · exact hdrop.1
      · omega
    apply hleft g (mem_poolGroups_of_mem hbound hid) id hid r hr
    rw [hshed.same hq hr]
    exact ⟨hstatus, rfl⟩
  · exact (hevicted.complete hcomplete).shed hshed id r hr (not_or.2 ⟨hX, hlisted⟩) hneeds

theorem forceEvict_safe (level : Nat) (need : Nat → Nat) : Safe P (P.forceEvict level need) := by
  intro s h
  by_cases hlevel : level < P.numCacheLevels
  · rw [forceEvict, bind_ok (check_eq (decide_eq_true hlevel))]
    refine (evict_spec P h level need).bind (fun evicted t ht => ?_) fun _ t ht => .of_pool ht.1 ht.2.1
    obtain ⟨hinv, hevicted, _, hbound⟩ := ht
    have hstart : Kept P s t := .of_pool hinv hevicted.pool
    by_cases hlast : level + 1 = P.numCacheLevels
    · obtain ⟨u, hu, hend, hshed, hleft⟩ := abandon_spec hinv evicted P.poolGroups
      rw [if_pos hlast]
      exact .of_ok hu ⟨hstart.trans (.of_shed hend hshed), fun X => hevicted.complete_abandoned h hlast hshed hbound hleft⟩
    · rw [if_neg hlast]
      have hbelow : level + 1 + (P.numCacheLevels - 2 - level) + 1 = P.numCacheLevels := by omega
      have hprepare := prepareAt_spec (fun _ _ => 0) hinv hbelow (hevicted.inTransit h hbound)
      refine hprepare.bind (fun _ u hu => ?_) fun _ u hu => hstart.trans (.of_frame hu.inv hu.frame)
      exact ⟨hstart.trans (.of_frame hu.2.inv hu.2.frame), fun X hcomplete => hu.2.queued X (hevicted.complete hcomplete)⟩
  · have hraise : P.forceEvict level need s = .error .indexError s := by
      rw [forceEvict, bind_error (check_error (decide_eq_false hlevel))]
    exact .of_error hraise (.refl h)

end TrtLlm.KvCache.StorageParams
