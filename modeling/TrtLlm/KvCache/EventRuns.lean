import TrtLlm.KvCache.EventStream

/-!
# Runs of the event manager

A reader who replays the events of a run never meets a block stored twice or removed without being stored, and after
each flush holds the pairs of layer group and block hash the manager has recorded.
-/

namespace TrtLlm.KvCache.Events

open List ChangeLog Dict

variable {Key Hash Token : Type}

namespace Block

theorem storedBlockData_blockHash {hash : Key → Hash} {block : Block Key Token} {ids : Option (Finset Nat)}
    {data : KVCacheStoredBlockData Hash Token} (h : block.storedBlockData hash ids = some data) :
    data.blockHash = hash block.key := by
  unfold storedBlockData at h
  dsimp only at h
  split at h
  · cases h
    rfl
  · split at h
    · cases h
    · cases h
      rfl

theorem exists_storedBlockData (hash : Key → Hash) {block : Block Key Token} {id : Nat} (hid : id ∈ block.lifeCycleIds) :
    ∃ data, block.storedBlockData hash (some {id}) = some data := by
  simp only [lifeCycleIds, mem_toFinset, mem_map, mem_filter] at hid
  obtain ⟨⟨page, id'⟩, ⟨hpage, hwhole⟩, rfl⟩ := hid
  unfold storedBlockData
  cases hfound : block.storage.zipIdx.findSome? _ with
  | some => exact ⟨_, rfl⟩
  | none =>
    have hnone : block.wholePage page = none := by simpa using findSome?_eq_none_iff.1 hfound (page, id') hpage
    simp [hnone] at hwhole

end Block

namespace KVCacheEventManager

def RemovedHashes.pairs (removed : RemovedHashes Hash) : List (LayerGroupId × Hash) :=
  removed.byLayerGroup.entries.flatMap fun entry => entry.2.map fun blockHash => (some entry.1, blockHash)

theorem pairs_add (removed : RemovedHashes Hash) (bh : Hash) {ids : Finset Nat} (hids : ids.Nonempty) :
    (removed.add bh ids).pairs.Perm
        (removed.pairs ++ (ids.sort (· ≤ ·)).map fun id => (some id, bh)) ∧
      (removed.add bh ids).withoutLayerGroup = removed.withoutLayerGroup := by
  have hfold : ∀ (ids : List Nat) (d : Dict Nat (List Hash)),
      ((ids.foldl (fun d id => d.upsert id fun hashes => hashes.getD [] ++ [bh]) d).entries.flatMap
        fun entry => entry.2.map fun bh => ((some entry.1 : LayerGroupId), bh)).Perm
      ((d.entries.flatMap fun entry => entry.2.map fun bh => ((some entry.1 : LayerGroupId), bh)) ++
        ids.map fun id => (some id, bh)) := by
    intro ids
    induction ids with
    | nil => simp
    | cons id ids ih =>
      intro d
      refine (ih _).trans ?_
      rw [map_cons, append_cons]
      refine .append_right _ ?_
      cases hget : d.get? id with
      | none => simp [entries_upsert_of_absent _ hget]
      | some old =>
        obtain ⟨before, after, hsplit, hothers⟩ := exists_split hget
        rw [entries_upsert_of_split _ hsplit hothers, hsplit]
        simp only [flatMap_append, flatMap_cons, map_append, append_assoc]
        refine .append_left _ (.append_left _ ?_)
        exact perm_append_comm
  rw [RemovedHashes.add, if_neg hids.ne_empty]
  exact ⟨hfold _ _, rfl⟩

theorem publishEvents_eq (m : KVCacheEventManager Key Hash Token) (events : List (KVCacheEvent Hash Token)) (max : Int) :
    ∃ events', m.publishEvents events max = { m with events := events' } := by
  cases events with
  | nil => exact ⟨m.events, rfl⟩
  | cons event rest => exact ⟨_, rfl⟩

variable [DecidableEq Key] [DecidableEq Hash] {pub : List (KVCacheEvent Hash Token)} {m m' : KVCacheEventManager Key Hash Token} {hash : Key → Hash}
  {keys : Set Key}

/-- The published events and the log replay to the recorded pairs; every record is of a known key, under the hash of the
key and for some life cycle. -/
structure Inv (hash : Key → Hash) (keys : Set Key) (published : List (KVCacheEvent Hash Token))
    (m : KVCacheEventManager Key Hash Token) : Prop where
  wf : Wf published m
  mirror : replay ∅ (streamChanges published ++ m.log) = some m.recorded
  known : ∀ key state, m.storedBlocks.get? key = some state →
    key ∈ keys ∧ state.blockHash = hash key ∧ state.lifeCycleIds.Nonempty

def Known (hash : Key → Hash) (keys : Set Key) (storedBlocks : Dict Key (StoredBlockState Hash)) : Prop :=
  ∀ key state, storedBlocks.get? key = some state → key ∈ keys ∧ state.blockHash = hash key ∧ state.lifeCycleIds.Nonempty

variable (h : Inv hash keys pub m)

include h

theorem Inv.records : Known hash keys m.storedBlocks := h.known

variable {storedBlocks : Dict Key (StoredBlockState Hash)} {changes : ChangeLog (LayerGroupId × Hash)} {block : Block Key Token}

theorem Inv.step (hemits : Emits pub changes { m with storedBlocks } m')
    (hreplay : replay m.recorded changes = some (recorded { m with storedBlocks }))
    (hknown : Known hash keys storedBlocks) : Inv hash keys pub m' := by
  have hrecorded : m'.recorded = recorded { m with storedBlocks } := by
    rw [recorded, recorded, hemits.storedBlocks_eq]
  refine ⟨hemits.wf, ?_, ?_⟩
  · have hlog := hemits.log_same.append_left (streamChanges pub)
    rw [hlog ∅, ← append_assoc, replay_append,
      show replay ∅ (streamChanges pub ++ log { m with storedBlocks }) = some m.recorded from h.mirror,
      Option.bind_some, hreplay, hrecorded]
  · rw [hemits.storedBlocks_eq]
    exact hknown

/-- What callers rely on: the invariant, and what only a flush or a reader changes. -/
structure Kept (hash : Key → Hash) (keys : Set Key) (published : List (KVCacheEvent Hash Token))
    (m m' : KVCacheEventManager Key Hash Token) : Prop where
  inv : Inv hash keys published m'
  max_eq : m'.maxKvEventEntries = m.maxKvEventEntries
  gather_eq : m'.hasGather = m.hasGather
  events_eq : m'.events = m.events

theorem Inv.wf_records (storedBlocks : Dict Key (StoredBlockState Hash)) : Wf pub { m with storedBlocks } := { h.wf with }

theorem Inv.kept_self : Kept hash keys pub m m := ⟨h, rfl, rfl, rfl⟩

theorem Inv.kept (hemits : Emits pub changes { m with storedBlocks } m')
    (hreplay : replay m.recorded changes = some (recorded { m with storedBlocks }))
    (hknown : Known hash keys storedBlocks) : Kept hash keys pub m m' :=
  ⟨h.step hemits hreplay hknown, hemits.max_eq, hemits.gather_eq, hemits.events_eq⟩

omit h

namespace Known

variable {storedBlocks : Dict Key (StoredBlockState Hash)} {key : Key} {group : LayerGroupId}

omit [DecidableEq Hash] in
theorem update {storedBlocks' : Dict Key (StoredBlockState Hash)} (h : Known hash keys storedBlocks)
    (hother : ∀ other, other ≠ key → storedBlocks'.get? other = storedBlocks.get? other)
    (hself : ∀ state, storedBlocks'.get? key = some state →
      key ∈ keys ∧ state.blockHash = hash key ∧ state.lifeCycleIds.Nonempty) : Known hash keys storedBlocks' := by
  intro key' state hget
  by_cases hk : key' = key
  · subst hk
    exact hself state hget
  · exact h key' state ((hother key' hk).symm.trans hget)

theorem mem_recorded_key (h : Known hash keys m.storedBlocks) (hinj : Set.InjOn hash keys) (hkey : key ∈ keys) :
    (group, hash key) ∈ m.recorded ↔
      ∃ state, m.storedBlocks.get? key = some state ∧ ∃ id ∈ state.lifeCycleIds, some id = group := by
  rw [mem_recorded]
  constructor
  · intro ⟨key', state, hget, id, hid, heq⟩
    obtain ⟨hkey', hhash, -⟩ := h key' state hget
    obtain ⟨rfl, hhash'⟩ := Prod.mk.inj heq
    obtain rfl := hinj hkey' hkey (hhash.symm.trans hhash')
    exact ⟨state, hget, id, hid, rfl⟩
  · intro ⟨state, hget, id, hid, hgroup⟩
    exact ⟨key, state, hget, id, hid, by rw [hgroup, (h key state hget).2.1]⟩

theorem mem_recorded_of_ne (h : Known hash keys m.storedBlocks) (h' : Known hash keys storedBlocks)
    (hother : ∀ other, other ≠ key → storedBlocks.get? other = m.storedBlocks.get? other)
    {bh : Hash} (hne : bh ≠ hash key) :
    (group, bh) ∈ recorded { m with storedBlocks } ↔ (group, bh) ∈ m.recorded := by
  simp only [mem_recorded]
  refine exists_congr fun key' => exists_congr fun state => and_congr_left fun ⟨id, _, heq⟩ => ?_
  by_cases hk : key' = key
  · subst hk
    have hnot : ∀ {d : Dict Key (StoredBlockState Hash)}, Known hash keys d → d.get? key' ≠ some state :=
      fun hd hget => hne ((Prod.mk.inj heq).2.symm.trans (hd key' state hget).2.1)
    exact iff_of_false (hnot h') (hnot h)
  · rw [hother key' hk]

end Known

omit [DecidableEq Key] in
theorem announceLifeCycles_emits (hash : Key → Hash) (h : Wf pub m) (hmax : 0 < m.maxKvEventEntries)
    (block : Block Key Token)
    {ids : List Nat} (hids : ∀ id ∈ ids, id ∈ block.lifeCycleIds) :
    ∃ m', announceLifeCycles hash block ids m = some m' ∧
      Emits pub (ids.map fun id => .add (some id, hash block.key)) m m' := by
  induction ids generalizing m with
  | nil => exact ⟨m, rfl, .refl h⟩
  | cons id ids ih =>
    obtain ⟨data, hdata⟩ := Block.exists_storedBlockData hash (hids id (.head _))
    obtain ⟨m₁, hstored, hemits⟩ := addStoredEvent_emits h hmax (block.parentHash hash) [data] (some id)
    obtain ⟨m', hrest, hemits'⟩ := ih hemits.wf (hemits.max_eq ▸ hmax) (forall_mem_cons.1 hids).2
    refine ⟨m', ?_, ?_⟩
    · rw [announceLifeCycles, hdata]
      simp [hstored, hrest]
    · have hall := hemits.trans hemits'
      simpa [Block.storedBlockData_blockHash hdata] using hall

variable (h : Inv hash keys pub m) (hinj : Set.InjOn hash keys)

include h hinj

theorem Inv.kept_insert {key : Key} (hkey : key ∈ keys) {state : StoredBlockState Hash}
    (hhash : state.blockHash = hash key) (hne : state.lifeCycleIds.Nonempty) {ids : List Nat} (hnodup : ids.Nodup)
    (hnew : ∀ id ∈ ids, (some id, hash key) ∉ m.recorded)
    (hids : ∀ group, (∃ id ∈ state.lifeCycleIds, some id = group) ↔ (group, hash key) ∈ m.recorded ∨ ∃ id ∈ ids, some id = group)
    (hemits : Emits pub (ids.map fun id => .add (some id, hash key))
      { m with storedBlocks := m.storedBlocks.insert key state } m') :
    Kept hash keys pub m m' := by
  have hother : ∀ other, other ≠ key → (m.storedBlocks.insert key state).get? other = m.storedBlocks.get? other :=
    fun _ => get?_insert_of_ne
  have hknown : Known hash keys (m.storedBlocks.insert key state) := by
    apply h.records.update hother
    intro old hget
    cases (get?_insert_self ..).symm.trans hget
    exact ⟨hkey, hhash, hne⟩
  refine h.kept hemits ?_ hknown
  have hinjective : Function.Injective fun id : Nat => (some id, hash key) := fun i j hij => by simpa using hij
  have hadd := replay_map_add m.recorded (hnodup.map hinjective) (by
    intro pair hpair
    obtain ⟨id, hid, rfl⟩ := mem_map.1 hpair
    exact hnew id hid)
  rw [map_map] at hadd
  refine hadd.trans (congrArg some ?_)
  ext ⟨group, bh⟩
  by_cases hsame : bh = hash key
  · subst hsame
    refine Iff.trans ?_ (Known.mem_recorded_key hknown hinj hkey).symm
    simp [hids]
  · rw [h.records.mem_recorded_of_ne hknown hother hsame]
    simp [Ne.symm hsame]

theorem addStoredBlockEventFromBlock_spec (hmax : 0 < m.maxKvEventEntries) (hkey : block.key ∈ keys)
    (hfresh : block.lifeCycleIds = ∅ ∨ m.storedBlocks.get? block.key = none) :
    ∃ m', m.addStoredBlockEventFromBlock hash block = some m' ∧ Kept hash keys pub m m' := by
  unfold addStoredBlockEventFromBlock
  split
  · exact ⟨m, rfl, h.kept_self⟩
  rename_i hids
  have habsent : ∀ group, (group, hash block.key) ∉ m.recorded := by
    intro group hmem
    obtain ⟨state, hget, -⟩ := (h.records.mem_recorded_key hinj hkey).1 hmem
    exact nomatch (hfresh.resolve_left hids).symm.trans hget
  obtain ⟨m', hannounce, hemits⟩ := announceLifeCycles_emits hash (h.wf_records (m.storedBlocks.insert block.key _))
    hmax block fun id hid => (Finset.mem_sort (· ≤ ·)).1 hid
  exact ⟨m', hannounce, h.kept_insert hinj hkey rfl (Finset.nonempty_iff_ne_empty.2 hids) (Finset.sort_nodup _ _)
    (fun id _ => habsent _) (fun group => by simp [habsent]) hemits⟩

theorem addStoredLifeCycleEventFromBlock_spec (hmax : 0 < m.maxKvEventEntries) (hkey : block.key ∈ keys) (id : Nat) :
    ∃ m', m.addStoredLifeCycleEventFromBlock hash block id = some m' ∧ Kept hash keys pub m m' := by
  unfold addStoredLifeCycleEventFromBlock
  cases hstate : m.storedBlocks.get? block.key with
  | none => exact addStoredBlockEventFromBlock_spec h hinj hmax hkey (.inr hstate)
  | some state =>
    dsimp only
    split
    · exact ⟨m, rfl, h.kept_self⟩
    rename_i hid
    cases hdata : block.storedBlockData hash (some {id}) with
    | none => exact ⟨m, rfl, h.kept_self⟩
    | some data =>
      let state' : StoredBlockState Hash := { state with lifeCycleIds := insert id state.lifeCycleIds }
      obtain ⟨m', hstored, hemits⟩ := addStoredEvent_emits (h.wf_records (m.storedBlocks.insert block.key state')) hmax
        (block.parentHash hash) [data] (some id)
      have hrecorded : ∀ group, (group, hash block.key) ∈ m.recorded ↔ ∃ i ∈ state.lifeCycleIds, some i = group := by
        intro group
        rw [h.records.mem_recorded_key hinj hkey]
        simp [hstate]
      have hhash : state'.blockHash = hash block.key := (h.known _ _ hstate).2.1
      rw [map_singleton, Block.storedBlockData_blockHash hdata] at hemits
      refine ⟨m', hstored, h.kept_insert hinj hkey hhash (Finset.insert_nonempty _ _) (nodup_singleton id) ?_ ?_ hemits⟩
      · simpa [hrecorded] using hid
      · simp [hrecorded, state', or_comm]

theorem addRemovedLifeCycleEvent_spec (hmax : 0 < m.maxKvEventEntries) (key : Key) (id : Nat) :
    Kept hash keys pub m (m.addRemovedLifeCycleEvent key id) := by
  unfold addRemovedLifeCycleEvent
  cases hstate : m.storedBlocks.get? key with
  | none => exact h.kept_self
  | some state =>
    dsimp only
    split
    · exact h.kept_self
    rename_i hid
    rw [not_not] at hid
    obtain ⟨hkey, hhash, -⟩ := h.known _ _ hstate
    set storedBlocks := if state.lifeCycleIds.erase id = ∅ then m.storedBlocks.erase key
      else m.storedBlocks.insert key { state with lifeCycleIds := state.lifeCycleIds.erase id } with hstored
    -- either way the record of the key now has the remaining life cycles
    have hother : ∀ other, other ≠ key → storedBlocks.get? other = m.storedBlocks.get? other := by
      intro other hne
      rw [hstored]
      split <;> simp [get?_erase, hne]
    have hself : storedBlocks.get? key = if state.lifeCycleIds.erase id = ∅ then none
        else some { state with lifeCycleIds := state.lifeCycleIds.erase id } := by
      rw [hstored]
      split <;> simp [get?_erase]
    have hknown : Known hash keys storedBlocks := by
      apply h.records.update hother
      intro old hget
      rw [hself] at hget
      split at hget
      · cases hget
      rename_i hremaining
      cases hget
      exact ⟨hkey, hhash, Finset.nonempty_iff_ne_empty.2 hremaining⟩
    have hemits := enqueueRemovedEvent_emits (h.wf_records storedBlocks) hmax [state.blockHash] (some id)
    refine h.kept hemits ?_ hknown
    have hpresent : (some id, state.blockHash) ∈ m.recorded := mem_recorded.2 ⟨key, state, hstate, id, hid, rfl⟩
    simp only [removedChanges, map_cons, map_nil, replay_cons, replay_nil, Change.apply_remove_of_mem hpresent, Option.bind_some]
    congr 1
    ext ⟨group, bh⟩
    rw [Finset.mem_erase, hhash]
    by_cases hsame : bh = hash key
    · subst hsame
      rw [h.records.mem_recorded_key hinj hkey, Known.mem_recorded_key hknown hinj hkey]
      simp only [hself, hstate]
      have hmem : (∃ i ∈ state.lifeCycleIds.erase id, some i = group) ↔
          (group, hash key) ≠ (some id, hash key) ∧ ∃ i ∈ state.lifeCycleIds, some i = group := by
        grind
      split
      · rename_i hempty
        simpa [hempty] using hmem
      · simpa using hmem.symm
    · rw [h.records.mem_recorded_of_ne hknown hother hsame]
      simp [hsame]

omit h hinj

/-- What the loop of `add_removed_event` has done: the pairs it took out of the records are those it collected. -/
structure Collected (hash : Key → Hash) (keys : Set Key) (m m' : KVCacheEventManager Key Hash Token)
    (removed removed' : RemovedHashes Hash) : Prop where
  only_records : m' = { m with storedBlocks := m'.storedBlocks }
  known : Known hash keys m'.storedBlocks
  without_eq : removed'.withoutLayerGroup = removed.withoutLayerGroup
  pairs : ∃ taken, removed'.pairs.Perm (removed.pairs ++ taken) ∧ taken.Nodup ∧ (∀ pair ∈ taken, pair ∈ m.recorded) ∧
    m'.recorded = m.recorded \ taken.toFinset

omit [DecidableEq Hash] in
theorem Known.erase (h : Known hash keys m.storedBlocks) (key : Key) : Known hash keys (m.storedBlocks.erase key) := by
  intro key' state hget
  rw [get?_erase] at hget
  split at hget
  · cases hget
  · exact h key' state hget

theorem recorded_erase (hinj : Set.InjOn hash keys) (h : Known hash keys m.storedBlocks) {key : Key}
    {state : StoredBlockState Hash} (hstate : m.storedBlocks.get? key = some state) :
    recorded { m with storedBlocks := m.storedBlocks.erase key } =
      m.recorded \ ((state.lifeCycleIds.sort (· ≤ ·)).map fun id => (some id, state.blockHash)).toFinset := by
  obtain ⟨hkey, hhash, -⟩ := h key state hstate
  ext ⟨group, bh⟩
  rw [Finset.mem_sdiff, hhash]
  by_cases hsame : bh = hash key
  · subst hsame
    rw [h.mem_recorded_key hinj hkey, Known.mem_recorded_key (h.erase key) hinj hkey]
    simp [get?_erase, hstate]
  · have hother : ∀ other, other ≠ key → (m.storedBlocks.erase key).get? other = m.storedBlocks.get? other := by
      intro other hne
      rw [get?_erase, if_neg hne]
    rw [h.mem_recorded_of_ne (h.erase key) hother hsame]
    simp [Ne.symm hsame]

theorem collectRemoved_spec (hinj : Set.InjOn hash keys) (blocks : List Key) (removed : RemovedHashes Hash)
    (h : Known hash keys m.storedBlocks) :
    Collected hash keys m (m.collectRemoved (blocks.map .key) removed).2 removed
      (m.collectRemoved (blocks.map .key) removed).1 := by
  induction blocks generalizing m removed with
  | nil => exact ⟨rfl, h, rfl, [], by simp [collectRemoved], nodup_nil, by simp, by simp [collectRemoved]⟩
  | cons key rest ih =>
    cases hstate : m.storedBlocks.get? key with
    | none =>
      simp only [map_cons, collectRemoved, popStoredBlockState, hstate, erase_of_absent hstate]
      exact ih removed h
    | some state =>
      obtain ⟨-, -, hnonempty⟩ := h key state hstate
      have hrest := ih (m := { m with storedBlocks := m.storedBlocks.erase key })
        (removed.add state.blockHash state.lifeCycleIds) (h.erase key)
      obtain ⟨hperm, hwithout⟩ := pairs_add removed state.blockHash hnonempty
      obtain ⟨taken, htaken, hnodup, hsub, hrecorded⟩ := hrest.pairs
      have herase := recorded_erase hinj h hstate
      rw [herase] at hsub hrecorded
      simp only [map_cons, collectRemoved, popStoredBlockState, hstate, Option.map_some]
      refine ⟨hrest.only_records, hrest.known, hrest.without_eq.trans hwithout,
        ((state.lifeCycleIds.sort (· ≤ ·)).map fun id => (some id, state.blockHash)) ++ taken, ?_, ?_, ?_, ?_⟩
      · rw [← append_assoc]
        exact htaken.trans (hperm.append_right taken)
      · apply List.Nodup.append
        · apply (Finset.sort_nodup _ _).map
          intro i j hij
          simpa using hij
        · exact hnodup
        · intro pair hpair hpair'
          have hnot := (Finset.mem_sdiff.1 (hsub pair hpair')).2
          exact hnot (mem_toFinset.2 hpair)
      · intro pair hpair
        rcases mem_append.1 hpair with hpair | hpair
        · obtain ⟨id, hid, rfl⟩ := mem_map.1 hpair
          exact mem_recorded.2 ⟨key, state, hstate, id, (Finset.mem_sort (· ≤ ·)).1 hid, rfl⟩
        · exact (Finset.mem_sdiff.1 (hsub pair hpair)).1
      · rw [hrecorded, toFinset_append, sdiff_sdiff_left]
        rfl

omit [DecidableEq Key] in
theorem enqueueAll_emits (h : Wf pub m) (hmax : 0 < m.maxKvEventEntries) (entries : List (Nat × List Hash)) :
    Emits pub ((entries.flatMap fun entry => entry.2.map fun bh => (some entry.1, bh)).map .remove) m
      (entries.foldl (fun m entry => m.enqueueRemovedEvent entry.2 (some entry.1)) m) := by
  induction entries generalizing m with
  | nil => exact .refl h
  | cons entry rest ih =>
    have hfirst := enqueueRemovedEvent_emits h hmax entry.2 (some entry.1)
    have hrest := ih hfirst.wf (hfirst.max_eq ▸ hmax)
    have hall := hfirst.trans hrest
    simpa [removedChanges, Function.comp_def] using hall

theorem addRemovedEvent_spec (h : Inv hash keys pub m) (hinj : Set.InjOn hash keys)
    (hmax : 0 < m.maxKvEventEntries) (blocks : List Key) :
    Kept hash keys pub m (m.addRemovedEvent (blocks.map .key)) := by
  have hcollected := collectRemoved_spec hinj blocks {} h.known
  unfold addRemovedEvent
  generalize m.collectRemoved (blocks.map .key) {} = collected at hcollected
  obtain ⟨removed, m₁⟩ := collected
  have honly := hcollected.only_records
  obtain ⟨taken, hperm, hnodup, hsub, hrecorded⟩ := hcollected.pairs
  have hknown := hcollected.known
  have hwithout : removed.withoutLayerGroup = [] := hcollected.without_eq
  dsimp only at honly hperm hrecorded hknown ⊢
  rw [hwithout]
  have hwf := h.wf_records m₁.storedBlocks
  rw [← honly] at hwf
  have hmax' : 0 < m₁.maxKvEventEntries := by
    rw [honly]
    exact hmax
  set entries := removed.byLayerGroup.entries.insertionSort fun a b => a.1 ≤ b.1
  let pairs : List (LayerGroupId × Hash) :=
    entries.flatMap fun entry => entry.2.map fun bh => (some entry.1, bh)
  have hemits : Emits pub (pairs.map .remove) { m with storedBlocks := m₁.storedBlocks }
      (entries.foldl (fun m entry => m.enqueueRemovedEvent entry.2 (some entry.1)) m₁) := by
    rw [← honly]
    exact enqueueAll_emits hwf hmax' entries
  have hentries : pairs.Perm taken := ((perm_insertionSort _ _).flatMap_right _).trans hperm
  refine h.kept hemits ?_ hknown
  rw [replay_map_remove m.recorded (hentries.nodup_iff.2 hnodup) fun pair hpair => hsub pair
    (hentries.mem_iff.1 hpair),
    ← honly, hrecorded]
  congr 2
  ext pair
  simp [hentries.mem_iff]

theorem drainPendingEvents_spec (h : Inv hash keys pub m) :
    Inv hash keys (pub ++ m.drainPendingEvents.1) m.drainPendingEvents.2 ∧ m.drainPendingEvents.2.log = [] ∧
      m.drainPendingEvents.2.maxKvEventEntries = m.maxKvEventEntries ∧
      m.drainPendingEvents.2.hasGather = m.hasGather ∧ m.drainPendingEvents.2.events = m.events := by
  obtain ⟨hflush, hempty⟩ := flushAllRemovedEvents_emits h.wf
  have hinv := h.step hflush rfl h.known
  have hlog : m.flushAllRemovedEventsUnlocked.log = streamChanges m.flushAllRemovedEventsUnlocked.pendingEvents := by
    simp [log, hempty]
  have hdrained : m.drainPendingEvents.2.log = [] := by
    simp [drainPendingEvents, log, streamChanges, hempty]
  refine ⟨⟨⟨?_, ?_, ?_⟩, ?_, hinv.known⟩, hdrained, hflush.max_eq, hflush.gather_eq, hflush.events_eq⟩
  · simpa [drainPendingEvents] using hinv.wf.ids
  · simpa [drainPendingEvents] using hinv.wf.ids_lt
  · intro group event hget
    cases hget
  · have hmirror := hinv.mirror
    rw [hlog] at hmirror
    rw [hdrained, append_nil, streamChanges, flatMap_append]
    exact hmirror

theorem flushIterationEvents_spec (h : Inv hash keys pub m)
    (gather : List (KVCacheEvent Hash Token) → List (List (KVCacheEvent Hash Token))) :
    Inv hash keys (pub ++ m.drainPendingEvents.1) (m.flushIterationEvents gather) ∧
      (m.flushIterationEvents gather).log = [] ∧
      (m.flushIterationEvents gather).maxKvEventEntries = m.maxKvEventEntries ∧
      (m.flushIterationEvents gather).hasGather = m.hasGather ∧
      (m.hasGather = false → (m.events.length + m.drainPendingEvents.1.length : Int) ≤ m.maxKvEventEntries →
        (m.flushIterationEvents gather).events = m.events ++ m.drainPendingEvents.1) := by
  obtain ⟨hinv, hlog, hmax, hgather, hevents⟩ := drainPendingEvents_spec h
  have heq : ∃ events, m.flushIterationEvents gather = { m.drainPendingEvents.2 with events } := by
    unfold flushIterationEvents
    dsimp only
    split
    · split
      · exact ⟨_, rfl⟩
      · exact publishEvents_eq _ _ _
    · exact publishEvents_eq _ _ _
  obtain ⟨events, heq⟩ := heq
  rw [heq]
  refine ⟨⟨{ hinv.wf with }, hinv.mirror, hinv.known⟩, hlog, hmax, hgather, ?_⟩
  intro hlocal hfits
  rw [← heq, flushIterationEvents]
  dsimp only
  rw [hgather, hlocal, hmax]
  cases hdrained : m.drainPendingEvents.1 with
  | nil => simpa [publishEvents] using hevents
  | cons event rest =>
    rw [hdrained] at hfits
    have hdrop : (m.events ++ event :: rest).length - m.maxKvEventEntries.toNat = 0 := by
      rw [length_append]
      omega
    simp only [publishEvents, hevents, Bool.false_eq_true, if_false]
    rw [hdrop, drop_zero]

end KVCacheEventManager

/-- A call of the cache on a block identified by its key, a flush, or a reader taking the published events. -/
inductive Op (Key Hash Token : Type) where
  | addStoredBlockEventFromBlock (block : Block Key Token)
  | addStoredLifeCycleEventFromBlock (block : Block Key Token) (lifeCycleId : Nat)
  | addRemovedEvent (blocks : List Key)
  | addRemovedLifeCycleEvent (key : Key) (lifeCycleId : Nat)
  | addUpdatedEvent (key : Key) (cacheLevel priority : Option KVCacheEventDiff) (layerGroupId : LayerGroupId)
  | flushIterationEvents (gather : List (KVCacheEvent Hash Token) → List (List (KVCacheEvent Hash Token)))
  | getLatestEvents

/-- The manager, the events drained in all flushes, which it publishes or hands to `attention_dp_gather`, and those its
reader has taken. -/
structure EventRun (Key Hash Token : Type) where
  manager : KVCacheEventManager Key Hash Token
  drained : List (KVCacheEvent Hash Token) := []
  taken : List (KVCacheEvent Hash Token) := []

namespace EventRun

open KVCacheEventManager

variable [DecidableEq Key] [DecidableEq Hash]

/-- A call, and whether it returns; one that raises leaves the run as it is. -/
def exec (hash : Key → Hash) (r : EventRun Key Hash Token) : Op Key Hash Token → EventRun Key Hash Token × Bool
  | .addStoredBlockEventFromBlock block =>
    match r.manager.addStoredBlockEventFromBlock hash block with
    | some manager => ({ r with manager }, true)
    | none => (r, false)
  | .addStoredLifeCycleEventFromBlock block lifeCycleId =>
    match r.manager.addStoredLifeCycleEventFromBlock hash block lifeCycleId with
    | some manager => ({ r with manager }, true)
    | none => (r, false)
  | .addRemovedEvent blocks => ({ r with manager := r.manager.addRemovedEvent (blocks.map .key) }, true)
  | .addRemovedLifeCycleEvent key lifeCycleId =>
    ({ r with manager := r.manager.addRemovedLifeCycleEvent key lifeCycleId }, true)
  | .addUpdatedEvent key cacheLevel priority layerGroupId =>
    ({ r with manager := r.manager.addUpdatedEvent (.key key) cacheLevel priority layerGroupId }, true)
  | .flushIterationEvents gather =>
    ({ r with
      manager := r.manager.flushIterationEvents gather
      drained := r.drained ++ r.manager.drainPendingEvents.1 }, true)
  | .getLatestEvents =>
    ({ r with manager := r.manager.getLatestEvents.2, taken := r.taken ++ r.manager.getLatestEvents.1 }, true)

/-- Blocks are of the given keys, a block is announced as new only if it is not recorded, and flushes do not exceed
the limit. -/
def Admissible (keys : Set Key) (r : EventRun Key Hash Token) : Op Key Hash Token → Prop
  | .addStoredBlockEventFromBlock block =>
    block.key ∈ keys ∧ (block.lifeCycleIds = ∅ ∨ r.manager.storedBlocks.get? block.key = none)
  | .addStoredLifeCycleEventFromBlock block _ => block.key ∈ keys
  | .flushIterationEvents _ =>
    (r.manager.events.length + r.manager.drainPendingEvents.1.length : Int) ≤ r.manager.maxKvEventEntries
  | _ => True

def machine (hash : Key → Hash) (keys : Set Key) : Machine (EventRun Key Hash Token) (Op Key Hash Token) Bool :=
  ⟨Admissible keys, exec hash⟩

structure Good (hash : Key → Hash) (keys : Set Key) (hasGather : Bool) (r : EventRun Key Hash Token) : Prop where
  inv : Inv hash keys r.drained r.manager
  max_pos : 0 < r.manager.maxKvEventEntries
  gather_eq : r.manager.hasGather = hasGather
  published : hasGather = false → r.taken ++ r.manager.events = r.drained

variable {hash : Key → Hash} {keys : Set Key} {hasGather : Bool}

theorem Good.setManager {r : EventRun Key Hash Token} (h : Good hash keys hasGather r)
    {manager : KVCacheEventManager Key Hash Token} (hkept : Kept hash keys r.drained r.manager manager) :
    Good hash keys hasGather { r with manager } := by
  refine ⟨hkept.inv, hkept.max_eq ▸ h.max_pos, hkept.gather_eq.trans h.gather_eq, fun hlocal => ?_⟩
  rw [hkept.events_eq]
  exact h.published hlocal

theorem good_exec (hinj : Set.InjOn hash keys) {r : EventRun Key Hash Token} (h : Good hash keys hasGather r)
    (op : Op Key Hash Token) (hadm : Admissible keys r op) :
    Good hash keys hasGather (exec hash r op).1 ∧ (exec hash r op).2 = true := by
  cases op with
  | addStoredBlockEventFromBlock block =>
    obtain ⟨manager, hcall, hkept⟩ := addStoredBlockEventFromBlock_spec h.inv hinj h.max_pos hadm.1 hadm.2
    rw [exec, hcall]
    exact ⟨h.setManager hkept, rfl⟩
  | addStoredLifeCycleEventFromBlock block id =>
    obtain ⟨manager, hcall, hkept⟩ := addStoredLifeCycleEventFromBlock_spec h.inv hinj h.max_pos hadm id
    rw [exec, hcall]
    exact ⟨h.setManager hkept, rfl⟩
  | addRemovedEvent blocks => exact ⟨h.setManager (addRemovedEvent_spec h.inv hinj h.max_pos blocks), rfl⟩
  | addRemovedLifeCycleEvent key id =>
    exact ⟨h.setManager (addRemovedLifeCycleEvent_spec h.inv hinj h.max_pos key id), rfl⟩
  | addUpdatedEvent key cacheLevel priority group =>
    refine ⟨h.setManager ?_, rfl⟩
    unfold KVCacheEventManager.addUpdatedEvent
    split
    · exact h.inv.kept_self
    · cases r.manager.getStoredBlockHash (.key key) with
      | none => exact h.inv.kept_self
      | some bh => exact h.inv.kept (addUpdate_emits h.inv.wf bh cacheLevel priority group) rfl h.inv.records
  | flushIterationEvents gather =>
    obtain ⟨hinv, -, hmax, hgather, hevents⟩ := flushIterationEvents_spec h.inv gather
    refine ⟨⟨hinv, hmax ▸ h.max_pos, hgather.trans h.gather_eq, fun hlocal => ?_⟩, rfl⟩
    dsimp only [exec]
    rw [hevents (h.gather_eq.trans hlocal) hadm, ← append_assoc, h.published hlocal]
  | getLatestEvents =>
    refine ⟨⟨⟨{ h.inv.wf with }, h.inv.mirror, h.inv.known⟩, h.max_pos, h.gather_eq, fun hlocal => ?_⟩, rfl⟩
    simpa [exec, KVCacheEventManager.getLatestEvents] using h.published hlocal

def start (maxKvEventEntries windowSize : Int) (windowSizeByLayerGroup : Dict Nat Int) (attentionDpRank : Option Nat)
    (hasGather : Bool) : EventRun Key Hash Token :=
  { manager := { maxKvEventEntries, windowSize, windowSizeByLayerGroup, attentionDpRank, hasGather } }

/-- The event stream is faithful: in every run in which blocks are announced as new only when not recorded, no call
raises, event ids grow, the events can be replayed, without a gathering function the published events are the drained
ones, and after a flush the replay yields what is recorded. -/
theorem event_stream_faithful (hash : Key → Hash) (keys : Set Key) (hinj : Set.InjOn hash keys)
    (maxKvEventEntries windowSize : Int) (windowSizeByLayerGroup : Dict Nat Int) (attentionDpRank : Option Nat)
    (hasGather : Bool) (hmax : 0 < maxKvEventEntries) (calls : List (Op Key Hash Token × Bool))
    (r : EventRun Key Hash Token)
    (hpath : Path (machine hash keys).Step (start maxKvEventEntries windowSize windowSizeByLayerGroup attentionDpRank
      hasGather) calls r) :
    (∀ call ∈ calls, call.2 = true) ∧
    r.drained.Pairwise (fun a b => a.eventId < b.eventId) ∧
    (∃ mirror, replay ∅ (streamChanges r.drained) = some mirror) ∧
    (hasGather = false → r.taken ++ r.manager.events = r.drained) ∧
    ∀ gather, replay ∅ (streamChanges (exec hash r (.flushIterationEvents gather)).1.drained) =
      some (exec hash r (.flushIterationEvents gather)).1.manager.recorded := by
  have hstep : ∀ (s : EventRun Key Hash Token) call t, Good hash keys hasGather s → True →
      (machine hash keys).Step s call t → Good hash keys hasGather t ∧ call.2 = true := by
    rintro s ⟨op, ok⟩ t h - ⟨hadm, hexec⟩
    have hgood := good_exec hinj h op hadm
    rwa [show exec hash s op = (t, ok) from hexec] at hgood
  obtain ⟨hgood, hreturns⟩ := Path.invariant_of_forall hstep hpath
    ⟨⟨⟨.nil, by simp [start], nofun⟩, rfl, nofun⟩, hmax, rfl, fun _ => rfl⟩ fun _ _ => trivial
  refine ⟨hreturns, (pairwise_append.1 hgood.inv.wf.ids).1, ?_, hgood.published, fun gather => ?_⟩
  · have hmirror := hgood.inv.mirror
    rw [replay_append] at hmirror
    obtain ⟨mirror, hreplay, -⟩ := Option.bind_eq_some_iff.1 hmirror
    exact ⟨mirror, hreplay⟩
  · obtain ⟨hinv, hlog, -⟩ := flushIterationEvents_spec hgood.inv gather
    have hmirror := hinv.mirror
    rwa [hlog, append_nil] at hmirror

def wholeBlock : Block Nat Nat := ⟨7, [1, 2], [some ⟨0, 35, 2⟩], none⟩

/-- A block is stored, loses its page and is stored again, with a flush after each. -/
def storeAgain : List (Op Nat Nat Nat) :=
  [.addStoredBlockEventFromBlock wholeBlock, .flushIterationEvents (fun _ => []), .addRemovedLifeCycleEvent 7 0,
    .addStoredBlockEventFromBlock wholeBlock]

theorem event_stream_faithful_store_again : ((machine id Set.univ).Admits (start 8 0 ∅ none false) storeAgain) ∧
    ∀ gather, replay ∅ (streamChanges
        (exec id ((machine id Set.univ).after (start 8 0 ∅ none false) storeAgain) (.flushIterationEvents gather)).1.drained) =
      some (exec id ((machine id Set.univ).after (start 8 0 ∅ none false) storeAgain)
        (.flushIterationEvents gather)).1.manager.recorded := by
  have hadmits : (machine id .univ).Admits (start 8 0 ∅ none false) storeAgain := by
    refine ⟨⟨Set.mem_univ _, .inr rfl⟩, ?_, trivial, ⟨Set.mem_univ _, .inr ?_⟩, trivial⟩
    · change (_ : Int) ≤ _
      decide +kernel
    · decide +kernel
  exact ⟨hadmits, (event_stream_faithful id Set.univ Function.injective_id.injOn 8 0 ∅ none false (by decide) _ _
    hadmits.path).2.2.2.2⟩

/-- A block that is announced as new while it is recorded is stored twice. -/
theorem announced_twice_stored_twice :
    replay ∅ (streamChanges ((machine id Set.univ).after (start 8 0 ∅ none false)
      [.addStoredBlockEventFromBlock wholeBlock, .addStoredBlockEventFromBlock wholeBlock,
        .flushIterationEvents (fun _ => [])]).drained) = none := by
  decide +kernel

end EventRun

end TrtLlm.KvCache.Events
