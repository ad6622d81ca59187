import Mathlib
import TrtLlm.KvCache.LifeCycle

/-!
# Storage layout

`_storage/_config.py`: buffers of one life cycle and one size are coalesced into one pool of a slot, and life
cycles whose slots have the same sizes share a pool group. The tables at the end are those `StorageManager`
computes from the layout.
-/

namespace TrtLlm.KvCache

open List Dict

def exactDiv (x y : Nat) : Option Nat := if y ≠ 0 ∧ x % y = 0 then some (x / y) else none

theorem exactDiv_eq_some {x y q : Nat} : exactDiv x y = some q ↔ y ≠ 0 ∧ x = y * q := by
  rw [exactDiv]
  split
  · rename_i h
    have hx := Nat.mul_div_cancel' (Nat.dvd_of_mod_eq_zero h.2)
    constructor
    · intro hq
      cases hq
      exact ⟨h.1, hx.symm⟩
    · intro hq
      rw [hq.2, Nat.mul_div_cancel_left _ (pos_of_ne_zero h.1)]
  · rename_i h
    refine iff_of_false (by simp) fun hq => h ⟨hq.1, ?_⟩
    rw [hq.2, Nat.mul_mod_right]

structure BufferId where
  layerId : LayerId
  role : DataRole
deriving DecidableEq, Repr

/-- Buffers of one size and life cycle, side by side in a slot. -/
structure CoalescedBuffer where
  singleBufferSize : Nat
  bufferIds : List BufferId
deriving DecidableEq, Repr

namespace CoalescedBuffer

def numBuffers (cb : CoalescedBuffer) : Nat := cb.bufferIds.length

def size (cb : CoalescedBuffer) : Nat := cb.singleBufferSize * cb.numBuffers

end CoalescedBuffer

/-- The coalesced buffers of a life cycle, one for each pool of its pool group, the largest first. -/
structure SlotDescVariant where
  lifeCycleId : LifeCycleId
  coalescedBuffers : List CoalescedBuffer
  sorted : coalescedBuffers.Pairwise fun a b => b.size ≤ a.size

def SlotDescVariant.slotSizeList (variant : SlotDescVariant) : List Nat := variant.coalescedBuffers.map CoalescedBuffer.size

structure SlotDesc where
  variants : List SlotDescVariant

structure BufferAttr where
  lifeCycleId : LifeCycleId
  poolIndex : Nat
  offset : Nat
  size : Nat
  expansion : Nat
deriving DecidableEq, Repr

/-- `slotUtil` counts, for each pool, the layer's buffers in a slot; `slotUtilFracMax` is the layer's largest share of a
slot's buffers. -/
structure LayerAttr where
  lifeCycleId : LifeCycleId
  slotUtil : List Nat
  slotUtilFracMax : Rat
deriving DecidableEq, Repr

structure StorageConfig where
  slotDescList : List SlotDesc
  expansion : Dict BufferId Nat
  lifeCycleIds_nodup : ((slotDescList.flatMap SlotDesc.variants).map SlotDescVariant.lifeCycleId).Nodup

/-! ### Grouping buffers -/

/-- One round of the inner loop of `create_storage_config`. -/
def addBuffer (tokensPerBlock : Nat) (layerId : LayerId) (acc : Dict Nat (List BufferId) × Dict BufferId Nat)
    (buffer : BufferConfig) : Option (Dict Nat (List BufferId) × Dict BufferId Nat) := do
  let expansion ← exactDiv tokensPerBlock (buffer.tokensPerBlockOverride.getD tokensPerBlock)
  let size := buffer.size * expansion
  let bufId : BufferId := ⟨layerId, buffer.role⟩
  pure (acc.1.upsert size fun ids => ids.getD [] ++ [bufId], acc.2.insert bufId expansion)

structure BufferGroups where
  bufferGroups : Dict LifeCycleId (Dict Nat (List BufferId)) := ∅
  expansionMap : Dict BufferId Nat := ∅

variable (registry : List LifeCycle) (tokensPerBlock : Nat)

def addLayer (groups : BufferGroups) (layer : LayerConfig) : Option BufferGroups := do
  let lifeCycle ← makeLifeCycle layer tokensPerBlock
  let lifeCycleId ← getLifeCycleId registry lifeCycle
  let sizeToBuffers := (groups.bufferGroups.get? lifeCycleId).getD ∅
  let (sizeToBuffers, expansionMap) ←
    layer.buffers.foldlM (addBuffer tokensPerBlock layer.layerId) (sizeToBuffers, groups.expansionMap)
  pure ⟨groups.bufferGroups.insert lifeCycleId sizeToBuffers, expansionMap⟩

/-- One slot group for a life cycle. The sort is stable, as Python's is. -/
def makeSlotGroup (lifeCycleId : LifeCycleId) (sizeToBuffers : Dict Nat (List BufferId)) : SlotDescVariant where
  lifeCycleId := lifeCycleId
  coalescedBuffers := (sizeToBuffers.entries.map fun entry => ⟨entry.1, entry.2⟩).insertionSort fun a b => b.size ≤ a.size
  sorted := by
    have htotal : Std.Total fun a b : CoalescedBuffer => b.size ≤ a.size := ⟨fun a b => Nat.le_total _ _⟩
    have htrans : IsTrans CoalescedBuffer fun a b => b.size ≤ a.size := ⟨fun _ _ _ hab hbc => hbc.trans hab⟩
    exact pairwise_insertionSort _ _

def mergeSlotGroups (slotGroups : List SlotDescVariant) : List SlotDesc :=
  let poolGroupsBySlotSizeList : Dict (List Nat) (List SlotDescVariant) :=
    slotGroups.foldl (fun groups group => groups.upsert group.slotSizeList fun same => same.getD [] ++ [group]) ∅
  poolGroupsBySlotSizeList.values.map SlotDesc.mk

def createStorageConfig (config : KVCacheManagerConfig) : Option StorageConfig := do
  let registry ← lifeCycleRegistry config
  let groups ← config.layers.foldlM (addLayer registry config.tokensPerBlock) {}
  let slotGroups := groups.bufferGroups.entries.map fun entry => makeSlotGroup entry.1 entry.2
  let slotDescList := mergeSlotGroups slotGroups
  if hnodup : ((slotDescList.flatMap SlotDesc.variants).map SlotDescVariant.lifeCycleId).Nodup then
    some ⟨slotDescList, groups.expansionMap, hnodup⟩
  else none

namespace StorageConfig

variable (sc : StorageConfig)

def variants : List SlotDescVariant := sc.slotDescList.flatMap SlotDesc.variants

/-- The writes of `buffer_attributes`, in order. -/
def bufferAttrWrites : List (BufferId × BufferAttr) :=
  sc.variants.flatMap fun slot => slot.coalescedBuffers.zipIdx.flatMap fun (cb, pool) =>
    cb.bufferIds.zipIdx.map fun (b, i) =>
      (b, ⟨slot.lifeCycleId, pool, i * cb.singleBufferSize, cb.singleBufferSize, (sc.expansion.get? b).getD 1⟩)

def bufferAttributes : Dict BufferId BufferAttr := .ofList sc.bufferAttrWrites

def slotToPageIndices : Dict LifeCycleId (List Nat) :=
  .ofList (sc.variants.map fun slot => (slot.lifeCycleId, slot.coalescedBuffers.map CoalescedBuffer.numBuffers))

structure LayerUse where
  layerId : LayerId
  lifeCycleId : LifeCycleId
  numPools : Nat
  pool : Nat
  count : Nat
  buffersPerSlot : Nat

def countByLayer (cb : CoalescedBuffer) : Dict LayerId Nat :=
  cb.bufferIds.foldl (fun counts b => counts.upsert b.layerId fun n => n.getD 0 + 1) ∅

def layerUses : List LayerUse :=
  sc.variants.flatMap fun slot => slot.coalescedBuffers.zipIdx.flatMap fun (cb, pool) =>
    (countByLayer cb).entries.map fun (layerId, count) =>
      ⟨layerId, slot.lifeCycleId, slot.coalescedBuffers.length, pool, count, cb.numBuffers⟩

/-- One round of the innermost loop of `layer_attributes`; `none` is the failed assertion that a layer has one
life cycle. -/
def addLayerUse (ret : Dict LayerId LayerAttr) (use : LayerUse) : Option (Dict LayerId LayerAttr) :=
  let attr := (ret.get? use.layerId).getD ⟨use.lifeCycleId, List.replicate use.numPools 0, 0⟩
  if attr.lifeCycleId ≠ use.lifeCycleId then none
  else some (ret.insert use.layerId { attr with
    slotUtil := attr.slotUtil.set use.pool use.count
    slotUtilFracMax := max attr.slotUtilFracMax (use.count / use.buffersPerSlot) })

def layerAttributes : Option (Dict LayerId LayerAttr) := sc.layerUses.foldlM addLayerUse ∅

end StorageConfig

structure StorageTables where
  bufferAttr : Dict BufferId BufferAttr
  layerAttributes : Dict LayerId LayerAttr
  slotToPageIndices : Dict LifeCycleId (List Nat)

namespace StorageTables

def ofConfig (sc : StorageConfig) : Option StorageTables := do
  let layerAttributes ← sc.layerAttributes
  pure ⟨sc.bufferAttributes, layerAttributes, sc.slotToPageIndices⟩

/-- `_slot_util_frac_max` of a life cycle: the largest share over its layers. -/
def slotUtilFracMax (tables : StorageTables) (lifeCycleId : LifeCycleId) : Rat :=
  tables.layerAttributes.values.foldl
    (fun frac attr => if attr.lifeCycleId = lifeCycleId ∧ frac < attr.slotUtilFracMax then attr.slotUtilFracMax else
      frac) 0

end StorageTables

def BufferConfig.expansion (buffer : BufferConfig) : Nat := tokensPerBlock / buffer.tokensPerBlockOverride.getD tokensPerBlock

def BufferConfig.expandedSize (buffer : BufferConfig) : Nat := buffer.size * buffer.expansion tokensPerBlock

def LayerConfig.idsOfSize (tokensPerBlock size : Nat) (layer : LayerConfig) : List BufferId :=
  (layer.buffers.filter fun buffer => buffer.expandedSize tokensPerBlock = size).map fun buffer =>
    ⟨layer.layerId, buffer.role⟩

def recordExpansions (layerId : LayerId) (e : Dict BufferId Nat) (buffers : List BufferConfig) : Dict BufferId Nat :=
  buffers.foldl (fun e buffer => e.insert ⟨layerId, buffer.role⟩ (buffer.expansion tokensPerBlock)) e

def BufferGroups.ids (sizeToBuffers : Dict Nat (List BufferId)) (size : Nat) : List BufferId := (sizeToBuffers.get? size).getD []

/-- Dictionaries of groups in which no group is empty. -/
def BufferGroups.Inhabited (sizeToBuffers : Dict Nat (List BufferId)) : Prop :=
  ∀ size ids, sizeToBuffers.get? size = some ids → ids ≠ []

variable {reg : List LifeCycle} {tpb : Nat} {layer : LayerConfig} {buffer : BufferConfig} {d d' : Dict Nat (List BufferId)}
  {e e' : Dict BufferId Nat} {layers : List LayerConfig} {groups : BufferGroups} {b : BufferId}
  {slotGroups : List SlotDescVariant}

theorem addBuffer_spec {layerId : LayerId} (hok : addBuffer tpb layerId (d, e) buffer = some (d', e')) :
    (∀ size, BufferGroups.ids d' size = BufferGroups.ids d size ++
      if buffer.expandedSize tpb = size then [⟨layerId, buffer.role⟩] else []) ∧
    (BufferGroups.Inhabited d → BufferGroups.Inhabited d') ∧
    e' = e.insert ⟨layerId, buffer.role⟩ (buffer.expansion tpb) ∧
    buffer.tokensPerBlockOverride.getD tpb ≠ 0 := by
  obtain ⟨expansion, hdiv, heq⟩ := Option.bind_eq_some_iff.1 hok
  obtain ⟨hne, hmul⟩ := exactDiv_eq_some.1 hdiv
  obtain rfl : expansion = buffer.expansion tpb := (Nat.div_eq_of_eq_mul_right (pos_of_ne_zero hne) hmul).symm
  cases heq
  refine ⟨fun size => ?_, fun hd size ids hget => ?_, rfl, hne⟩
  · rw [BufferGroups.ids, get?_upsert, BufferGroups.ids, BufferConfig.expandedSize]
    by_cases hsize : size = buffer.size * buffer.expansion tpb
    · simp [hsize]
    · simp [hsize, Ne.symm hsize]
  · rw [get?_upsert] at hget
    split at hget
    · cases hget
      simp
    · exact hd size ids hget

theorem addBuffers_spec {layerId : LayerId} {buffers : List BufferConfig}
    (hok : buffers.foldlM (addBuffer tpb layerId) (d, e) = some (d', e')) :
    (∀ size, BufferGroups.ids d' size = BufferGroups.ids d size ++
      (buffers.filter fun buffer => buffer.expandedSize tpb = size).map fun buffer =>
        ⟨layerId, buffer.role⟩) ∧
    (BufferGroups.Inhabited d → BufferGroups.Inhabited d') ∧
    e' = recordExpansions tpb layerId e buffers ∧
    ∀ buffer ∈ buffers, buffer.tokensPerBlockOverride.getD tpb ≠ 0 := by
  induction buffers generalizing d e with
  | nil =>
    cases hok
    simp [recordExpansions]
  | cons buffer rest ih =>
    obtain ⟨⟨d₁, e₁⟩, hstep, hrest⟩ := Option.bind_eq_some_iff.1 hok
    obtain ⟨hids, hne, rfl, hdiv⟩ := addBuffer_spec hstep
    obtain ⟨hids', hne', rfl, hdivs⟩ := ih hrest
    refine ⟨fun size => ?_, fun hd => hne' (hne hd), rfl, forall_mem_cons.2 ⟨hdiv, hdivs⟩⟩
    rw [hids', hids]
    by_cases hsize : buffer.expandedSize tpb = size <;> simp [hsize]

def lifeCycleIdOf (layer : LayerConfig) : Option LifeCycleId :=
  (makeLifeCycle layer tokensPerBlock).bind (getLifeCycleId registry)

/-- The buffers that end up in the coalesced buffer of a life cycle and a size: layer by layer, in the order of
the configuration. -/
def coalescedIds (layers : List LayerConfig) (lifeCycleId : LifeCycleId) (size : Nat) : List BufferId :=
  layers.flatMap fun layer =>
    if lifeCycleIdOf registry tokensPerBlock layer = some lifeCycleId then layer.idsOfSize tokensPerBlock size else []

structure LayerConfig.Accepted (layer : LayerConfig) : Prop where
  lifeCycle : ∃ lifeCycle, makeLifeCycle layer tokensPerBlock = some lifeCycle
  lifeCycleId : ∃ lifeCycleId, lifeCycleIdOf registry tokensPerBlock layer = some lifeCycleId
  override_ne_zero : ∀ buffer ∈ layer.buffers, buffer.tokensPerBlockOverride.getD tokensPerBlock ≠ 0

structure BufferGroups.After (layers : List LayerConfig) (groups : BufferGroups) : Prop where
  ids_eq : ∀ lifeCycleId sizeToBuffers, groups.bufferGroups.get? lifeCycleId = some sizeToBuffers → ∀ size,
    BufferGroups.ids sizeToBuffers size = coalescedIds registry tokensPerBlock layers lifeCycleId size
  absent : ∀ lifeCycleId, groups.bufferGroups.get? lifeCycleId = none → ∀ size,
    coalescedIds registry tokensPerBlock layers lifeCycleId size = []
  inhabited : ∀ lifeCycleId sizeToBuffers, groups.bufferGroups.get? lifeCycleId = some sizeToBuffers →
    BufferGroups.Inhabited sizeToBuffers
  expansion_eq : groups.expansionMap =
    layers.foldl (fun e layer => recordExpansions tokensPerBlock layer.layerId e layer.buffers) ∅
  accepted : ∀ layer ∈ layers, layer.Accepted registry tokensPerBlock

theorem coalescedIds_append (layers more : List LayerConfig) (lc : LifeCycleId) (size : Nat) :
    coalescedIds reg tpb (layers ++ more) lc size =
      coalescedIds reg tpb layers lc size ++ coalescedIds reg tpb more lc size := flatMap_append

theorem coalescedIds_singleton (layer : LayerConfig) (lc : LifeCycleId) (size : Nat) :
    coalescedIds reg tpb [layer] lc size =
      if lifeCycleIdOf reg tpb layer = some lc then layer.idsOfSize tpb size else [] := flatMap_singleton _ _

theorem BufferGroups.After.addLayer {groups' : BufferGroups} (h : groups.After reg tpb layers)
    (hok : addLayer reg tpb groups layer = some groups') :
    groups'.After reg tpb (layers ++ [layer]) := by
  obtain ⟨lifeCycle, hmake, hok⟩ := Option.bind_eq_some_iff.1 hok
  obtain ⟨id, hid, hok⟩ := Option.bind_eq_some_iff.1 hok
  obtain ⟨⟨d, e⟩, hbuffers, hok⟩ := Option.bind_eq_some_iff.1 hok
  cases hok
  obtain ⟨hids, hne, rfl, hdiv⟩ := addBuffers_spec hbuffers
  have hlayer : lifeCycleIdOf reg tpb layer = some id := by
    rw [lifeCycleIdOf, hmake]
    exact hid
  have hold : ∀ size, BufferGroups.ids ((groups.bufferGroups.get? id).getD ∅) size =
      coalescedIds reg tpb layers id size := by
    intro size
    cases hget : groups.bufferGroups.get? id with
    | none => exact (h.absent id hget size).symm
    | some old => exact h.ids_eq id old hget size
  refine ⟨?_, ?_, ?_, ?_, ?_⟩
  · intro other sizes hget size
    rw [get?_insert] at hget
    rw [coalescedIds_append, coalescedIds_singleton, hlayer]
    split at hget
    · rename_i hother
      cases hget
      rw [hids, hold, hother, if_pos rfl]
      rfl
    · rename_i hother
      rw [if_neg (by simpa using Ne.symm hother), append_nil]
      exact h.ids_eq other sizes hget size
  · intro other hget size
    rw [get?_insert] at hget
    split at hget
    · cases hget
    rename_i hother
    rw [coalescedIds_append, coalescedIds_singleton, hlayer, if_neg (by simpa using Ne.symm hother), append_nil]
    exact h.absent other hget size
  · intro other sizes hget
    rw [get?_insert] at hget
    split at hget
    · cases hget
      refine hne ?_
      cases hget' : groups.bufferGroups.get? id with
      | none => exact nofun
      | some old => exact h.inhabited id old hget'
    · exact h.inhabited other sizes hget
  · rw [foldl_append, ← h.expansion_eq]
    rfl
  · exact forall_mem_append.2 ⟨h.accepted, forall_mem_singleton.2 ⟨⟨lifeCycle, hmake⟩, ⟨id, hlayer⟩, hdiv⟩⟩

theorem addLayers_spec {reg : List LifeCycle}
    (h : layers.foldlM (addLayer reg tpb) {} = some groups) :
    groups.After reg tpb layers := by
  have hfold : ∀ (rest done : List LayerConfig) (g : BufferGroups), g.After reg tpb done →
      rest.foldlM (addLayer reg tpb) g = some groups →
      groups.After reg tpb (done ++ rest) := by
    intro rest
    induction rest with
    | nil =>
      intro done g hg h
      cases h
      rwa [append_nil]
    | cons layer rest ih =>
      intro done g hg h
      obtain ⟨g', hstep, hrest⟩ := Option.bind_eq_some_iff.1 h
      rw [append_cons]
      exact ih _ g' (hg.addLayer hstep) hrest
  refine hfold layers [] {} ⟨?_, ?_, ?_, rfl, ?_⟩ h
  · exact nofun
  · exact fun _ _ _ => rfl
  · exact nofun
  · exact nofun

/-! ### The layout of an accepted configuration -/

theorem KVCacheManagerConfig.layer_ext (config : KVCacheManagerConfig) {layer' : LayerConfig}
    (hmem : layer ∈ config.layers) (hmem' : layer' ∈ config.layers) (hid : layer.layerId = layer'.layerId) :
    layer = layer' := inj_on_of_nodup_map config.layerIds_nodup hmem hmem' hid

theorem LayerConfig.nodup_ids (layer : LayerConfig) :
    (layer.buffers.map fun buffer => (⟨layer.layerId, buffer.role⟩ : BufferId)).Nodup := by
  have hinj : Function.Injective (BufferId.mk layer.layerId) := fun r r' heq => (BufferId.mk.inj heq).2
  have hnodup := layer.roles_nodup.map hinj
  rwa [map_map] at hnodup

theorem LayerConfig.mem_idsOfSize {size : Nat} :
    b ∈ layer.idsOfSize tpb size ↔
      b.layerId = layer.layerId ∧ ∃ buffer ∈ layer.buffers, buffer.role = b.role ∧ buffer.expandedSize tpb = size := by
  obtain ⟨layerId, role⟩ := b
  simp only [idsOfSize, mem_map, mem_filter, decide_eq_true_eq, BufferId.mk.injEq]
  constructor
  · intro ⟨buffer, ⟨hmem, hsize⟩, hid, hrole⟩
    exact ⟨hid.symm, buffer, hmem, hrole, hsize⟩
  · intro ⟨hid, buffer, hmem, hrole, hsize⟩
    exact ⟨buffer, ⟨hmem, hsize⟩, hid.symm, hrole⟩

variable {config : KVCacheManagerConfig}

/-- A coalesced buffer holds a layer's buffers side by side, and nothing of that layer elsewhere. -/
theorem coalescedIds_split {lc : LifeCycleId} (size : Nat) (hlayer : layer ∈ config.layers)
    (hid : lifeCycleIdOf reg config.tokensPerBlock layer = some lc) :
    ∃ before after, coalescedIds reg config.tokensPerBlock config.layers lc size =
        before ++ layer.idsOfSize config.tokensPerBlock size ++ after ∧
      ∀ b ∈ before ++ after, b.layerId ≠ layer.layerId := by
  obtain ⟨front, back, hsplit⟩ := append_of_mem hlayer
  have hnodup := config.layerIds_nodup
  rw [hsplit, map_append, map_cons, nodup_middle, nodup_cons, ← map_append] at hnodup
  refine ⟨coalescedIds reg config.tokensPerBlock front lc size,
    coalescedIds reg config.tokensPerBlock back lc size, ?_, ?_⟩
  · rw [hsplit, append_cons, coalescedIds_append, coalescedIds_append, coalescedIds_singleton, if_pos hid]
  intro b hb heq
  rw [← coalescedIds_append, coalescedIds, mem_flatMap] at hb
  obtain ⟨other, hother, hb⟩ := hb
  refine hnodup.1 (mem_map.2 ⟨other, hother, ?_⟩)
  split at hb
  · rw [← (LayerConfig.mem_idsOfSize.1 hb).1, heq]
  · cases hb

theorem nodup_coalescedIds (config : KVCacheManagerConfig) (reg : List LifeCycle) (lc : LifeCycleId)
    (size : Nat) : (coalescedIds reg config.tokensPerBlock config.layers lc size).Nodup := by
  rw [coalescedIds, nodup_flatMap]
  constructor
  · intro layer _
    split
    · exact layer.nodup_ids.sublist (filter_sublist.map _)
    · exact nodup_nil
  · refine (pairwise_map.1 config.layerIds_nodup).imp fun {layer layer'} hne b hb hb' => hne ?_
    dsimp only at hb hb'
    split at hb
    · split at hb'
      · rw [← (LayerConfig.mem_idsOfSize.1 hb).1, (LayerConfig.mem_idsOfSize.1 hb').1]
      · cases hb'
    · cases hb

theorem get?_expansionMap (hlayer : layer ∈ config.layers) (hbuffer : buffer ∈ layer.buffers) (tpb : Nat) :
    get? (config.layers.foldl (fun e layer => recordExpansions tpb layer.layerId e layer.buffers) ∅)
      ⟨layer.layerId, buffer.role⟩ = some (buffer.expansion tpb) := by
  let writes (layer : LayerConfig) : List (BufferId × Nat) := layer.buffers.map fun buffer =>
    (⟨layer.layerId, buffer.role⟩, buffer.expansion tpb)
  have hkeys : ((config.layers.flatMap writes).map Prod.fst).Nodup := by
    rw [map_flatMap, nodup_flatMap]
    constructor
    · intro layer _
      rw [map_map]
      exact layer.nodup_ids
    · refine (pairwise_map.1 config.layerIds_nodup).imp fun {layer layer'} hne b hb hb' => hne ?_
      simp only [writes, map_map, mem_map] at hb hb'
      obtain ⟨_, _, rfl⟩ := hb
      obtain ⟨_, _, heq⟩ := hb'
      exact (BufferId.mk.inj heq).1.symm
  have hmem := get?_ofList hkeys (mem_flatMap.2 ⟨layer, hlayer, mem_map.2 ⟨buffer, hbuffer, rfl⟩⟩)
  rw [ofList, foldl_flatMap] at hmem
  simpa only [writes, foldl_map, recordExpansions] using hmem

structure StorageConfig.Describes (sc : StorageConfig) (config : KVCacheManagerConfig) (registry : List LifeCycle) :
    Prop where
  bufferIds_ne_nil : ∀ slot ∈ sc.variants, ∀ cb ∈ slot.coalescedBuffers, cb.bufferIds ≠ []
  bufferIds_eq : ∀ slot ∈ sc.variants, ∀ cb ∈ slot.coalescedBuffers, cb.bufferIds =
    coalescedIds registry config.tokensPerBlock config.layers slot.lifeCycleId cb.singleBufferSize
  sizes_nodup : ∀ slot ∈ sc.variants, (slot.coalescedBuffers.map CoalescedBuffer.singleBufferSize).Nodup
  expansion_eq : ∀ layer ∈ config.layers, ∀ buffer ∈ layer.buffers,
    sc.expansion.get? ⟨layer.layerId, buffer.role⟩ = some (buffer.expansion config.tokensPerBlock)
  accepted : ∀ layer ∈ config.layers, layer.Accepted registry config.tokensPerBlock

theorem mergeSlotGroups_spec {desc : SlotDesc} (hdesc : desc ∈ mergeSlotGroups slotGroups) :
    ∃ sizes, ∀ slot ∈ desc.variants, slot ∈ slotGroups ∧ slot.slotSizeList = sizes := by
  obtain ⟨same, hsame, rfl⟩ := mem_map.1 hdesc
  obtain ⟨sizes, hget⟩ := mem_values_iff.1 hsame
  exact ⟨sizes, fun slot hslot => mem_of_get?_collect hget hslot⟩

theorem createStorageConfig_spec {sc : StorageConfig} (h : createStorageConfig config = some sc) :
    ∃ reg, sc.Describes config reg := by
  obtain ⟨reg, -, h⟩ := Option.bind_eq_some_iff.1 h
  obtain ⟨groups, hgroups, h⟩ := Option.bind_eq_some_iff.1 h
  have hafter := addLayers_spec hgroups
  dsimp only at h
  split at h
  · rename_i hnodup
    cases h
    have hvariant : ∀ slot ∈ StorageConfig.variants ⟨mergeSlotGroups (groups.bufferGroups.entries.map fun entry =>
        makeSlotGroup entry.1 entry.2), groups.expansionMap, hnodup⟩, ∃ sizes,
        groups.bufferGroups.get? slot.lifeCycleId = some sizes ∧
        slot.coalescedBuffers.Perm (sizes.entries.map fun entry => ⟨entry.1, entry.2⟩) := by
      intro slot hslot
      obtain ⟨desc, hdesc, hslot⟩ := mem_flatMap.1 hslot
      obtain ⟨_, hmerge⟩ := mergeSlotGroups_spec hdesc
      obtain ⟨⟨id, sizes⟩, hentry, rfl⟩ := mem_map.1 (hmerge slot hslot).1
      exact ⟨sizes, mem_entries_iff.1 hentry, perm_insertionSort _ _⟩
    have hcb : ∀ slot ∈ StorageConfig.variants ⟨mergeSlotGroups (groups.bufferGroups.entries.map fun entry =>
        makeSlotGroup entry.1 entry.2), groups.expansionMap, hnodup⟩, ∀ cb ∈ slot.coalescedBuffers,
        ∃ sizes, groups.bufferGroups.get? slot.lifeCycleId = some sizes ∧
          sizes.get? cb.singleBufferSize = some cb.bufferIds := by
      intro slot hslot cb hcb
      obtain ⟨sizes, hget, hperm⟩ := hvariant slot hslot
      obtain ⟨⟨size, ids⟩, hentry, rfl⟩ := mem_map.1 (hperm.mem_iff.1 hcb)
      exact ⟨sizes, hget, mem_entries_iff.1 hentry⟩
    refine ⟨reg, fun slot hslot cb hmem => ?_, fun slot hslot cb hmem => ?_, fun slot hslot => ?_, ?_, hafter.accepted⟩
    · obtain ⟨sizes, hget, hids⟩ := hcb slot hslot cb hmem
      exact hafter.inhabited _ _ hget _ _ hids
    · obtain ⟨sizes, hget, hids⟩ := hcb slot hslot cb hmem
      rw [← hafter.ids_eq _ _ hget, BufferGroups.ids, hids]
      rfl
    · obtain ⟨sizes, -, hperm⟩ := hvariant slot hslot
      rw [(hperm.map _).nodup_iff, map_map]
      exact sizes.nodup
    · intro layer hlayer buffer hbuffer
      rw [hafter.expansion_eq]
      exact get?_expansionMap hlayer hbuffer _
  · cases h

end TrtLlm.KvCache
