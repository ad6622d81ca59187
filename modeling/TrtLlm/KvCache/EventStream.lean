import Mathlib
import TrtLlm.Lib.ChangeLog
import TrtLlm.Lib.Path
import TrtLlm.KvCache.EventManager

/-!
# The event stream as a log

What a reader of the event stream sees: stored events add their blocks to a layer group, removed events take them out.
The pending events, followed by the removals that are not yet an event, are a log of all changes since the last flush.
Each call appends to it what it does to the recorded blocks, up to the order of changes to different blocks or layer
groups.
-/

namespace TrtLlm.KvCache.Events

open List ChangeLog KVCacheEvent Dict

variable {Key Hash Token : Type}

def KVCacheEvent.changes (event : KVCacheEvent Hash Token) : ChangeLog (LayerGroupId × Hash) :=
  match event.data with
  | .stored _ blocks => blocks.map fun block => .add (event.layerGroupId, block.blockHash)
  | .removed blockHashes => blockHashes.map fun blockHash => .remove (event.layerGroupId, blockHash)
  | _ => []

variable {c : Change (LayerGroupId × Hash)}

theorem KVCacheEvent.layerGroupId_of_mem_changes {event : KVCacheEvent Hash Token}
    (hc : c ∈ event.changes) : c.item.1 = event.layerGroupId := by
  unfold changes at hc
  split at hc
  · obtain ⟨block, -, rfl⟩ := mem_map.1 hc
    rfl
  · obtain ⟨bh, -, rfl⟩ := mem_map.1 hc
    rfl
  · cases hc

def streamChanges (events : List (KVCacheEvent Hash Token)) : ChangeLog (LayerGroupId × Hash) := events.flatMap changes

def removedChanges (entry : LayerGroupId × List Hash) : ChangeLog (LayerGroupId × Hash) :=
  entry.2.map fun blockHash => .remove (entry.1, blockHash)

theorem layerGroupId_of_mem_removedChanges {entry : LayerGroupId × List Hash}
    (hc : c ∈ removedChanges entry) : c.item.1 = entry.1 := by
  obtain ⟨bh, -, rfl⟩ := mem_map.1 hc
  rfl

namespace KVCacheEventManager

def log (m : KVCacheEventManager Key Hash Token) : ChangeLog (LayerGroupId × Hash) :=
  streamChanges m.pendingEvents ++ m.latestRemovedBlockHashes.entries.flatMap removedChanges

/-- The pairs of layer group and block hash in `_stored_blocks`. -/
def recorded [DecidableEq Hash] (m : KVCacheEventManager Key Hash Token) : Finset (LayerGroupId × Hash) :=
  m.storedBlocks.values.toFinset.biUnion fun state => state.lifeCycleIds.image fun id => (some id, state.blockHash)

theorem mem_recorded [DecidableEq Key] [DecidableEq Hash] {m : KVCacheEventManager Key Hash Token}
    {pair : LayerGroupId × Hash} :
    pair ∈ m.recorded ↔ ∃ key state, m.storedBlocks.get? key = some state ∧
      ∃ id ∈ state.lifeCycleIds, (some id, state.blockHash) = pair := by
  simp only [recorded, Finset.mem_biUnion, mem_toFinset, mem_values_iff, Finset.mem_image]
  constructor
  · intro ⟨state, ⟨key, hget⟩, hid⟩
    exact ⟨key, state, hget, hid⟩
  · intro ⟨key, state, hget, hid⟩
    exact ⟨state, ⟨key, hget⟩, hid⟩

/-- Event ids grow from the published events to the pending ones. The latest stored event of a layer group is pending,
and nothing has happened in the group since. -/
structure Wf (published : List (KVCacheEvent Hash Token)) (m : KVCacheEventManager Key Hash Token) : Prop where
  ids : (published ++ m.pendingEvents).Pairwise fun a b => a.eventId < b.eventId
  ids_lt : ∀ event ∈ published ++ m.pendingEvents, event.eventId < m.nextEventId
  latest : ∀ group event, m.latestStoredEvents.get? group = some event →
    m.latestRemovedBlockHashes.get? group = none ∧ event.layerGroupId = group ∧
    ∃ before after, m.pendingEvents = before ++ event :: after ∧ ∀ later ∈ after, ∀ c ∈ later.changes, c.item.1 ≠ group

variable {pub : List (KVCacheEvent Hash Token)} {m m' m'' : KVCacheEventManager Key Hash Token}

theorem Wf.append (h : Wf pub m) (event : KVCacheEvent Hash Token) (hid : event.eventId = m.nextEventId)
    {latestStoredEvents : Dict LayerGroupId (KVCacheEvent Hash Token)}
    (hlatest : ∀ group latest, latestStoredEvents.get? group = some latest → group = event.layerGroupId ∧
      latest = event ∧ m.latestRemovedBlockHashes.get? group = none ∨ group ≠ event.layerGroupId ∧
        m.latestStoredEvents.get? group = some latest) :
    Wf pub { m with
      nextEventId := m.nextEventId + 1, pendingEvents := m.pendingEvents ++ [event], latestStoredEvents } := by
  constructor
  · rw [← append_assoc, pairwise_append]
    refine ⟨h.ids, pairwise_singleton _ _, fun a ha b hb => ?_⟩
    rw [mem_singleton.1 hb, hid]
    exact h.ids_lt a ha
  · intro a ha
    rw [← append_assoc, mem_append, mem_singleton] at ha
    rcases ha with ha | rfl
    · exact Nat.lt_succ_of_lt (h.ids_lt a ha)
    · exact hid ▸ Nat.lt_succ_self _
  · intro group latest hget
    rcases hlatest group latest hget with ⟨rfl, rfl, hremoved⟩ | ⟨hne, hold⟩
    · exact ⟨hremoved, rfl, m.pendingEvents, [], rfl, by simp⟩
    obtain ⟨hremoved, hgroup, before, after, hpending, hafter⟩ := h.latest group latest hold
    refine ⟨hremoved, hgroup, before, after ++ [event], by simp [hpending],
      forall_mem_append.2 ⟨hafter, forall_mem_singleton.2 fun c hc => ?_⟩⟩
    rw [layerGroupId_of_mem_changes hc]
    exact hne.symm

variable {event : KVCacheEvent Hash Token} {before after : List (KVCacheEvent Hash Token)}

theorem latest_after_replace {merged latest : KVCacheEvent Hash Token} {before' after' : List (KVCacheEvent Hash Token)}
    {group group' : LayerGroupId} (hgroup : event.layerGroupId = group) (hgroup' : latest.layerGroupId = group')
    (hne : group' ≠ group) (hmerged : ∀ c ∈ merged.changes, c.item.1 ≠ group')
    (hpending : before ++ event :: after = before' ++ latest :: after')
    (hafter' : ∀ later ∈ after', ∀ c ∈ later.changes, c.item.1 ≠ group') :
    ∃ front back, before ++ merged :: after = front ++ latest :: back ∧
      ∀ later ∈ back, ∀ c ∈ later.changes, c.item.1 ≠ group' := by
  rcases append_eq_append_iff.1 hpending with ⟨mid, rfl, htail⟩ | ⟨mid, rfl, htail⟩
  · cases mid with
    | nil =>
      obtain ⟨rfl, -⟩ := cons.inj htail
      exact absurd (hgroup'.symm.trans hgroup) hne
    | cons first mid =>
      obtain ⟨rfl, rfl⟩ := cons.inj htail
      exact ⟨before ++ merged :: mid, after', by simp, hafter'⟩
  · cases mid with
    | nil =>
      obtain ⟨rfl, -⟩ := cons.inj htail
      exact absurd (hgroup'.symm.trans hgroup) hne
    | cons first mid =>
      obtain ⟨rfl, rfl⟩ := cons.inj htail
      refine ⟨before', mid ++ merged :: after, by simp, fun later hlater c hc => ?_⟩
      simp only [mem_append, mem_cons] at hlater
      rcases hlater with hlater | rfl | hlater
      · exact hafter' later (by simp [hlater]) c hc
      · exact hmerged c hc
      · exact hafter' later (by simp [hlater]) c hc

/-- Ids of pending events are distinct, so the event that is replaced is the right one. -/
theorem replacePendingEvent_eq
    (hids : (before ++ event :: after).Pairwise fun a b => a.eventId < b.eventId) (newEvent : KVCacheEvent Hash Token) :
    replacePendingEvent event newEvent (before ++ event :: after) = some (before ++ newEvent :: after) := by
  induction before with
  | nil =>
    have hnone : ∀ rest : List (KVCacheEvent Hash Token), (∀ later ∈ rest, event.eventId < later.eventId) →
        replacePendingEvent event newEvent rest = none := by
      intro rest
      induction rest with
      | nil => exact fun _ => rfl
      | cons later rest ih =>
        intro hlater
        have hne : later.eventId ≠ event.eventId := (hlater later (.head _)).ne'
        simp [replacePendingEvent, ih (forall_mem_cons.1 hlater).2, hne]
    rw [nil_append, pairwise_cons] at hids
    simp [replacePendingEvent, hnone after hids.1]
  | cons first before ih =>
    rw [cons_append, pairwise_cons] at hids
    simp [replacePendingEvent, ih hids.2]

/-! ### What internal steps append to the log -/

/-- From `m` to `m'` the given changes have been logged, and nothing else has happened. -/
structure Emits [DecidableEq Hash] (published : List (KVCacheEvent Hash Token))
    (changes : ChangeLog (LayerGroupId × Hash)) (m m' : KVCacheEventManager Key Hash Token) : Prop where
  storedBlocks_eq : m'.storedBlocks = m.storedBlocks
  max_eq : m'.maxKvEventEntries = m.maxKvEventEntries
  gather_eq : m'.hasGather = m.hasGather
  events_eq : m'.events = m.events
  log_same : Same m'.log (m.log ++ changes)
  wf : Wf published m'

section Emits

variable [DecidableEq Hash] {changes changes' : ChangeLog (LayerGroupId × Hash)}

theorem Emits.refl (h : Wf pub m) : Emits pub [] m m := by
  refine ⟨rfl, rfl, rfl, rfl, ?_, h⟩
  rw [append_nil]
  exact .refl _

theorem Emits.trans (h : Emits pub changes m m') (h' : Emits pub changes' m' m'') :
    Emits pub (changes ++ changes') m m'' := by
  constructor
  · rw [h'.storedBlocks_eq, h.storedBlocks_eq]
  · rw [h'.max_eq, h.max_eq]
  · rw [h'.gather_eq, h.gather_eq]
  · rw [h'.events_eq, h.events_eq]
  · rw [← append_assoc]
    exact h'.log_same.trans (h.log_same.append_right changes')
  · exact h'.wf

variable {group : LayerGroupId}

/-- Changes to one layer group move across the removals of the others. -/
theorem same_removed_comm {entries : List (LayerGroupId × List Hash)}
    (hentries : ∀ entry ∈ entries, entry.1 ≠ group) (hchanges : ∀ c ∈ changes, c.item.1 = group) :
    Same (changes ++ entries.flatMap removedChanges) (entries.flatMap removedChanges ++ changes) := by
  apply same_append_comm
  intro c hc d hd heq
  obtain ⟨entry, hentry, hd⟩ := mem_flatMap.1 hd
  apply hentries entry hentry
  rw [← layerGroupId_of_mem_removedChanges hd, ← heq, hchanges c hc]

theorem log_append_event (event : KVCacheEvent Hash Token)
    (hremoved : m.latestRemovedBlockHashes.get? event.layerGroupId = none) :
    Same (streamChanges (m.pendingEvents ++ [event]) ++ m.latestRemovedBlockHashes.entries.flatMap removedChanges)
      (m.log ++ event.changes) := by
  have hentries : ∀ entry ∈ m.latestRemovedBlockHashes.entries, entry.1 ≠ event.layerGroupId := by
    intro entry hentry heq
    rw [← heq, mem_entries_iff.1 hentry] at hremoved
    cases hremoved
  have hcomm := same_removed_comm hentries fun c => layerGroupId_of_mem_changes
  simpa [streamChanges, log] using hcomm.append_left (streamChanges m.pendingEvents)

variable (h : Wf pub m)

include h

theorem appendEvent_emits (data : EventData Hash Token) (hdata : data.isStored = false)
    (hremoved : m.latestRemovedBlockHashes.get? group = none) :
    Emits pub (m.appendEvent data group).1.changes m (m.appendEvent data group).2 := by
  refine ⟨rfl, rfl, rfl, rfl, ?_, ?_⟩
  · exact log_append_event (m.appendEvent data group).1 hremoved
  apply h.append (m.appendEvent data group).1 rfl
  intro group' latest hget
  rw [hdata] at hget
  simp only [Bool.false_eq_true, if_false, get?_erase] at hget
  split at hget
  · cases hget
  · rename_i hne
    exact .inr ⟨hne, hget⟩

theorem flushRemovedEvents_emits (group : LayerGroupId) : Emits pub [] m (m.flushRemovedEventsUnlocked group) := by
  unfold flushRemovedEventsUnlocked
  cases hget : m.latestRemovedBlockHashes.get? group with
  | none => exact .refl h
  | some hashes =>
    obtain ⟨before, after, hsplit, hothers⟩ := exists_split hget
    have herase := entries_erase_of_split hsplit hothers
    have hpopped : Wf pub { m with latestRemovedBlockHashes := m.latestRemovedBlockHashes.erase group } :=
      ⟨h.ids, h.ids_lt, fun group' event hevent =>
        let ⟨hremoved, hgroup, hpending⟩ := h.latest group' event hevent
        ⟨by simp [get?_erase, hremoved], hgroup, hpending⟩⟩
    -- the removals of this layer group move in front of those of the groups before it
    have hfront : Same (removedChanges (group, hashes) ++ before.flatMap removedChanges)
        (before.flatMap removedChanges ++ removedChanges (group, hashes)) :=
      same_removed_comm (fun entry hentry => hothers entry (mem_append_left _ hentry)) fun c => layerGroupId_of_mem_removedChanges
    cases hashes with
    | nil =>
      refine ⟨rfl, rfl, rfl, rfl, ?_, hpopped⟩
      have hlog : log { m with latestRemovedBlockHashes := m.latestRemovedBlockHashes.erase group } = m.log := by
        simp [log, herase, hsplit, removedChanges]
      rw [hlog, append_nil]
      exact .refl _
    | cons bh rest =>
      have hemits := appendEvent_emits hpopped (.removed (bh :: rest)) rfl
        (by simp [get?_erase] : (m.latestRemovedBlockHashes.erase group).get? group = none)
      refine ⟨rfl, rfl, rfl, rfl, ?_, hemits.wf⟩
      have hcomm := (hfront.append_right (after.flatMap removedChanges)).append_left (streamChanges m.pendingEvents)
      simp only [log, streamChanges, appendEvent, herase, hsplit, flatMap_append, flatMap_cons, append_nil,
        append_assoc] at hcomm ⊢
      exact hcomm

theorem flushAllRemovedEvents_emits :
    Emits pub [] m m.flushAllRemovedEventsUnlocked ∧
      m.flushAllRemovedEventsUnlocked.latestRemovedBlockHashes.entries = [] := by
  have hfold : ∀ (groups : List LayerGroupId) (m : KVCacheEventManager Key Hash Token), Wf pub m →
      Emits pub [] m (groups.foldl flushRemovedEventsUnlocked m) ∧
        ∀ group, (groups.foldl flushRemovedEventsUnlocked m).latestRemovedBlockHashes.get? group =
          if group ∈ groups then none else m.latestRemovedBlockHashes.get? group := by
    intro groups
    induction groups with
    | nil => exact fun m h => ⟨Emits.refl h, fun group => by simp⟩
    | cons first rest ih =>
      intro m h
      have hfirst := flushRemovedEvents_emits h first
      obtain ⟨hrest, hget⟩ := ih _ hfirst.wf
      refine ⟨hfirst.trans hrest, fun group => ?_⟩
      rw [foldl_cons, hget, flushRemovedEventsUnlocked]
      cases hfirst : m.latestRemovedBlockHashes.get? first with
      | none => by_cases hgroup : group = first <;> simp [hgroup, hfirst]
      | some hashes => cases hashes <;> by_cases hgroup : group = first <;> simp [appendEvent, get?_erase, hgroup]
  obtain ⟨hemits, hget⟩ := hfold m.latestRemovedBlockHashes.keys m h
  refine ⟨hemits, ?_⟩
  rw [eq_nil_iff_forall_not_mem]
  intro entry hentry
  have hentry' := mem_entries_iff.1 hentry
  rw [flushAllRemovedEventsUnlocked, hget] at hentry'
  split at hentry'
  · cases hentry'
  · rename_i habsent
    exact habsent (mem_keys_iff.2 ⟨_, hentry'⟩)

theorem addUpdate_emits (bh : Hash) (cacheLevel priority : Option KVCacheEventDiff) (group : LayerGroupId) :
    Emits pub [] m (m.addEvent (.updated bh cacheLevel priority) group) := by
  unfold addEvent
  split
  · exact .refl h
  · obtain ⟨hflush, hempty⟩ := flushAllRemovedEvents_emits h
    have hnone := get?_of_entries_nil hempty group
    exact hflush.trans (appendEvent_emits hflush.wf (.updated bh cacheLevel priority) rfl hnone)

theorem enqueueRemovedEvent_emits (hmax : 0 < m.maxKvEventEntries) (hashes : List Hash) (group : LayerGroupId) :
    Emits pub (removedChanges (group, hashes)) m (m.enqueueRemovedEvent hashes group) := by
  unfold enqueueRemovedEvent
  cases hashes with
  | nil => exact .refl h
  | cons bh rest =>
    dsimp only
    rw [if_neg (by omega)]
    refine ⟨rfl, rfl, rfl, rfl, ?_, h.ids, h.ids_lt, ?_⟩
    · cases hget : m.latestRemovedBlockHashes.get? group with
      | none =>
        have hentries := entries_upsert_of_absent (fun hashes => hashes.getD [] ++ (bh :: rest)) hget
        simp only [log, hentries, flatMap_append, flatMap_cons, flatMap_nil, append_nil, append_assoc]
        exact .refl _
      | some old =>
        obtain ⟨before, after, hsplit, hothers⟩ := exists_split hget
        have hentries := entries_upsert_of_split (fun hashes => hashes.getD [] ++ (bh :: rest)) hsplit hothers
        have hback : Same (removedChanges (group, bh :: rest) ++ after.flatMap removedChanges)
            (after.flatMap removedChanges ++ removedChanges (group, bh :: rest)) :=
          same_removed_comm (fun entry hentry => hothers entry (mem_append_right _ hentry))
            fun c => layerGroupId_of_mem_removedChanges
        have hcomm := hback.append_left
          (streamChanges m.pendingEvents ++ (before.flatMap removedChanges ++ removedChanges (group, old)))
        simp only [log, hentries, hsplit] at hcomm ⊢
        simpa [removedChanges] using hcomm
    · intro group' latest hlatest
      rw [get?_erase] at hlatest
      split at hlatest
      · cases hlatest
      rename_i hne
      obtain ⟨hremoved, hgroup, hpending⟩ := h.latest group' latest hlatest
      refine ⟨?_, hgroup, hpending⟩
      rw [get?_upsert, if_neg hne]
      exact hremoved

omit h

theorem addStoredEventLocked_emits (h : Wf pub m) (hmax : 0 < m.maxKvEventEntries) (parent : Option Hash)
    (blocks : List (KVCacheStoredBlockData Hash Token)) (group : LayerGroupId) :
    ∃ m', m.addStoredEventLocked parent blocks group = some m' ∧
      Emits pub (blocks.map fun block => .add (group, block.blockHash)) m m' := by
  unfold addStoredEventLocked
  rw [if_neg (by omega)]
  cases hcontinued : m.continuedEvent parent group with
  | some continued =>
    obtain ⟨event, latestParent, latestBlocks⟩ := continued
    obtain ⟨hempty, hlatest, hdata⟩ : m.latestRemovedBlockHashes.entries = [] ∧
        m.latestStoredEvents.get? group = some event ∧ event.data = .stored latestParent latestBlocks := by
      unfold continuedEvent at hcontinued
      split at hcontinued
      · cases hcontinued
      rename_i hempty
      split at hcontinued
      · rename_i latest hlatest
        split at hcontinued
        · rename_i hdata
          split at hcontinued
          · split at hcontinued
            · cases hcontinued
              exact ⟨not_not.1 hempty, hlatest, hdata⟩
            · cases hcontinued
          · cases hcontinued
        · cases hcontinued
      · cases hcontinued
    obtain ⟨hremoved, hgroup, before, after, hpending, hafter⟩ := h.latest group event hlatest
    let merged : KVCacheEvent Hash Token := { event with data := .stored latestParent (latestBlocks ++ blocks) }
    have hids := h.ids
    rw [hpending] at hids
    have hreplace := replacePendingEvent_eq (pairwise_append.1 hids).2.1 merged
    have hmerged : merged.changes = event.changes ++ blocks.map fun block => .add (group, block.blockHash) := by
      simp [merged, changes, hdata, hgroup]
    have hsame : (pub ++ (before ++ merged :: after)).map eventId = (pub ++ (before ++ event :: after)).map eventId := by
      simp [merged]
    refine ⟨{ m with
      pendingEvents := before ++ merged :: after
      latestStoredEvents := m.latestStoredEvents.insert group merged }, ?_, rfl, rfl, rfl, rfl, ?_, ?_, ?_, ?_⟩
    · show Option.map _ (replacePendingEvent event merged m.pendingEvents) = _
      rw [hpending, hreplace]
      rfl
    · -- nothing after the merged event is about its layer group
      have hcomm : Same ((blocks.map fun block => .add (group, block.blockHash)) ++ streamChanges after)
          (streamChanges after ++ blocks.map fun block => .add (group, block.blockHash)) := by
        apply same_append_comm
        intro c hc d hd heq
        obtain ⟨block, -, rfl⟩ := mem_map.1 hc
        obtain ⟨later, hlater, hd⟩ := mem_flatMap.1 hd
        exact hafter later hlater d hd (congrArg Prod.fst heq).symm
      have hlog := hcomm.append_left (streamChanges before ++ event.changes)
      simp only [log, streamChanges, hempty, hpending, flatMap_append, flatMap_cons, flatMap_nil,
        append_nil, append_assoc] at hlog ⊢
      rw [show changes merged = _ from hmerged, append_assoc]
      exact hlog
    · have hpair := pairwise_map.2 hids
      rw [← hsame] at hpair
      exact pairwise_map.1 hpair
    · have hlt := (forall_mem_map (P := (· < m.nextEventId))).2 h.ids_lt
      rw [hpending, ← hsame] at hlt
      exact forall_mem_map.1 hlt
    · intro group' latest hget
      rw [get?_insert] at hget
      split at hget
      · rename_i heq
        cases hget
        exact ⟨heq ▸ hremoved, hgroup.trans heq.symm, before, after, rfl, heq ▸ hafter⟩
      · rename_i hne
        obtain ⟨hremoved', hgroup', before', after', hpending', hafter'⟩ := h.latest group' latest hget
        exact ⟨hremoved', hgroup', latest_after_replace hgroup hgroup' hne
          (fun c hc => by rw [layerGroupId_of_mem_changes hc]; exact hgroup ▸ Ne.symm hne)
          (hpending.symm.trans hpending') hafter'⟩
  | none =>
    obtain ⟨hflush, hempty⟩ := flushAllRemovedEvents_emits h
    have hnone := get?_of_entries_nil hempty group
    refine ⟨_, rfl, hflush.storedBlocks_eq, hflush.max_eq, hflush.gather_eq, hflush.events_eq, ?_, ?_⟩
    · have hlog := log_append_event (m.flushAllRemovedEventsUnlocked.appendEvent (.stored parent blocks) group).1 hnone
      have hsame := hflush.log_same.append_right (blocks.map fun block => .add (group, block.blockHash))
      rw [append_nil] at hsame
      exact hlog.trans hsame
    · apply hflush.wf.append (m.flushAllRemovedEventsUnlocked.appendEvent (.stored parent blocks) group).1 rfl
      intro group' latest hget
      rw [get?_insert] at hget
      split at hget
      · rename_i heq
        cases hget
        exact .inl ⟨heq, rfl, heq ▸ hnone⟩
      · rename_i hne
        exact .inr ⟨hne, hget⟩

theorem addStoredEvent_emits (h : Wf pub m) (hmax : 0 < m.maxKvEventEntries) (parent : Option Hash)
    (blocks : List (KVCacheStoredBlockData Hash Token)) (group : LayerGroupId) :
    ∃ m', m.addStoredEvent parent blocks group = some m' ∧
      Emits pub (blocks.map fun block => .add (group, block.blockHash)) m m' := by
  cases blocks with
  | nil => exact ⟨m, rfl, .refl h⟩
  | cons block rest =>
    have hflush := flushRemovedEvents_emits h group
    obtain ⟨m', hstored, hemits⟩ := addStoredEventLocked_emits hflush.wf (hflush.max_eq ▸ hmax) parent (block :: rest) group
    refine ⟨m', ?_, hflush.trans hemits⟩
    rw [addStoredEvent, if_neg (by omega)]
    exact hstored

end Emits

end KVCacheEventManager

end TrtLlm.KvCache.Events
