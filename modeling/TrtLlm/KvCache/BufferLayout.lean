import TrtLlm.KvCache.PageIndexConverter

/-!
# Addresses of buffers

How a page index becomes an address: `get_mem_pool_base_address`, `get_page_stride` and `get_page_index_upper_bound`,
beside the conversion of page indices. The buffers of a life cycle tile the slots of its pools, and the two index
modes, with their base addresses, lead to the same bytes.
-/

namespace TrtLlm.KvCache

open List StorageConfig CoalescedBuffer PageIndexConverter

/-- `slot_size_list` of a pool group: that of its first variant. -/
def SlotDesc.slotSizeList (desc : SlotDesc) : List Nat := (desc.variants.head?.map (·.slotSizeList)).getD []

namespace StorageConfig

def lifeCycleGrouping (sc : StorageConfig) : Dict LifeCycleId Nat :=
  .ofList (sc.slotDescList.zipIdx.flatMap fun (desc, pgIdx) => desc.variants.map fun s => (s.lifeCycleId, pgIdx))

/-- One round of the loop of `layer_to_life_cycle_ids`; `none` is the failed assertion that a layer has one life
cycle. -/
def addLayerLifeCycle (map : Dict LayerId LifeCycleId) (entry : BufferId × BufferAttr) :
    Option (Dict LayerId LifeCycleId) :=
  let lcId := (map.get? entry.1.layerId).getD entry.2.lifeCycleId
  if lcId ≠ entry.2.lifeCycleId then none else some (map.insert entry.1.layerId lcId)

def layerToLifeCycleIds (sc : StorageConfig) : Option (Dict LayerId LifeCycleId) :=
  sc.bufferAttributes.entries.foldlM addLayerLifeCycle ∅

end StorageConfig

/-- The GPU level: where its pools begin, and how many slots its pool groups have. -/
structure GpuLevel where
  poolAddress : Nat → Nat → Nat
  numSlots : Nat → Nat

structure AddressMap where
  tables : StorageTables
  lifeCycleGrouping : Dict LifeCycleId Nat
  layerToLifeCycleIds : Dict LayerId LifeCycleId
  slotSizeLists : List (List Nat)
  gpu : GpuLevel
  enableSwaScratchReuse : Bool

namespace AddressMap

def ofConfig (sc : StorageConfig) (gpu : GpuLevel) (enableSwaScratchReuse : Bool) : Option AddressMap := do
  let tables ← StorageTables.ofConfig sc
  let layerToLifeCycleIds ← sc.layerToLifeCycleIds
  pure ⟨tables, sc.lifeCycleGrouping, layerToLifeCycleIds, sc.slotDescList.map SlotDesc.slotSizeList, gpu, enableSwaScratchReuse⟩

variable (m : AddressMap)

def slotSize (pgIdx poolIdx : Nat) : Option Nat := do
  let sizes ← m.slotSizeLists[pgIdx]?
  sizes[poolIdx]?

def slotAddress (pgIdx poolIdx slotId : Nat) : Option Nat := do
  let slotSize ← m.slotSize pgIdx poolIdx
  pure (m.gpu.poolAddress pgIdx poolIdx + slotSize * slotId)

def getMemPoolBaseAddress (layerId : LayerId) (role : DataRole) (indexMode : Option PageIndexMode) : Option Nat := do
  let attr ← m.tables.bufferAttr.get? ⟨layerId, role⟩
  -- the mode must be given when scratch slots are reused
  let indexMode ← match indexMode with
    | none => if m.enableSwaScratchReuse then none else some .shared
    | some mode => some mode
  let pgIdx ← m.lifeCycleGrouping.get? attr.lifeCycleId
  let addr ← m.slotAddress pgIdx attr.poolIndex 0
  pure (if indexMode = .shared then addr + attr.offset else addr)

def getPageStride (layerId : LayerId) (role : DataRole) : Option Nat := do
  let attr ← m.tables.bufferAttr.get? ⟨layerId, role⟩
  exactDiv attr.size attr.expansion

def getPageIndexUpperBound (layerId : LayerId) (role : DataRole) : Option Int := do
  let lcId ← m.layerToLifeCycleIds.get? layerId
  let pgIdx ← m.lifeCycleGrouping.get? lcId
  let attr ← m.tables.bufferAttr.get? ⟨layerId, role⟩
  let slotSize ← m.slotSize pgIdx attr.poolIndex
  let buffersPerSlot ← exactDiv slotSize attr.size
  let layerOffset ← exactDiv attr.offset attr.size
  pure (((buffersPerSlot * m.gpu.numSlots pgIdx : Nat) - (layerOffset : Int)) * attr.expansion)

/-- The `i`-th sub-page of buffer `b` in slot `slotId`: `bytes` of pool `poolIdx` of group `pgIdx`, counted from the
beginning of the pool. -/
structure SubPage (lifeCycleId : LifeCycleId) (pgIdx poolIdx slotId : Nat) (b : BufferId) (i : Nat) (bytes : Set Nat) :
    Prop where
  grouping_eq : m.lifeCycleGrouping.get? lifeCycleId = some pgIdx
  bytes_eq : ∃ attr slotSize stride, m.tables.bufferAttr.get? b = some attr ∧ attr.lifeCycleId = lifeCycleId ∧
    attr.poolIndex = poolIdx ∧ i < attr.expansion ∧ m.slotSize pgIdx poolIdx = some slotSize ∧
    m.getPageStride b.layerId b.role = some stride ∧
    bytes = Set.Ico (slotId * slotSize + attr.offset + i * stride) (slotId * slotSize + attr.offset + (i + 1) * stride)

def Regular (scratch : Option ScratchDesc) (ordinal : Nat) : Prop := ∀ desc ∈ scratch, ordinal ∉ desc.range

/-- With shared and with per-layer indices, the `i`-th page of buffer `b` in slot `slotId` is at the same address: where
its sub-page begins. -/
structure SameAddress (b : BufferId) (attr : BufferAttr) (slotId i : Nat) (index index' : Int) : Prop where
  address_eq : ∃ pgIdx slotSize stride sharedBase perLayerBase,
    m.lifeCycleGrouping.get? attr.lifeCycleId = some pgIdx ∧ m.slotSize pgIdx attr.poolIndex = some slotSize ∧
    m.getPageStride b.layerId b.role = some stride ∧
    m.getMemPoolBaseAddress b.layerId b.role (some .shared) = some sharedBase ∧
    m.getMemPoolBaseAddress b.layerId b.role (some .perLayer) = some perLayerBase ∧
    sharedBase + index * stride = m.gpu.poolAddress pgIdx attr.poolIndex + (slotId * slotSize + attr.offset + i * stride) ∧
    sharedBase + index * stride = perLayerBase + index' * stride
  bounded : ∃ pgIdx bound, m.lifeCycleGrouping.get? attr.lifeCycleId = some pgIdx ∧
    m.getPageIndexUpperBound b.layerId b.role = some bound ∧ (slotId < m.gpu.numSlots pgIdx → index < bound)

/-- The layout of the buffers of each life cycle, and the agreement of the two index modes. -/
structure Consistent : Prop where
  apart : ∀ lc pgIdx poolIdx slotId b i bytes slotId' b' i' bytes', m.SubPage lc pgIdx poolIdx slotId b i bytes →
    m.SubPage lc pgIdx poolIdx slotId' b' i' bytes' → (slotId, b, i) ≠ (slotId', b', i') → Disjoint bytes bytes'
  tiled : ∀ lc pgIdx poolIdx slotSize, m.lifeCycleGrouping.get? lc = some pgIdx →
    m.slotSize pgIdx poolIdx = some slotSize → ∀ slotId x,
    x ∈ Set.Ico (slotId * slotSize) ((slotId + 1) * slotSize) ↔
      ∃ b i bytes, m.SubPage lc pgIdx poolIdx slotId b i bytes ∧ x ∈ bytes
  converts : ∀ b attr, m.tables.bufferAttr.get? b = some attr → 0 < attr.size → ∃ c,
    getPageIndexConverter m.tables b.layerId b.role = some c ∧ c.expansion = attr.expansion ∧
    ∀ baseIndices, ∃ indices, c.call baseIndices (some .shared) none = some indices
  sameAddress : ∀ b attr c, m.tables.bufferAttr.get? b = some attr →
    getPageIndexConverter m.tables b.layerId b.role = some c →
    ∀ baseIndices scratch indices, c.call baseIndices (some .shared) scratch = some indices →
    ∃ indices', c.call baseIndices (some .perLayer) scratch = some indices' ∧
      ∀ (ordinal slotId i : Nat), baseIndices[ordinal]? = some (slotId : Int) → Regular scratch ordinal →
        i < c.expansion → ∃ index index', indices[ordinal * c.expansion + i]? = some index ∧
          indices'[ordinal * c.expansion + i]? = some index' ∧ m.SameAddress b attr slotId i index index'

end AddressMap

variable {sc : StorageConfig} {config : KVCacheManagerConfig} {registry : List LifeCycle} {m : AddressMap}
  {gpu : GpuLevel} {reuse : Bool}

theorem slotSizeList_of_mem (h : createStorageConfig config = some sc) {desc : SlotDesc}
    (hdesc : desc ∈ sc.slotDescList) {slot : SlotDescVariant} (hslot : slot ∈ desc.variants) :
    desc.slotSizeList = slot.slotSizeList := by
  obtain ⟨registry, -, h⟩ := Option.bind_eq_some_iff.1 h
  obtain ⟨groups, -, h⟩ := Option.bind_eq_some_iff.1 h
  dsimp only at h
  split at h
  · cases h
    obtain ⟨sizes, hsizes⟩ := mergeSlotGroups_spec hdesc
    rw [(hsizes slot hslot).2, SlotDesc.slotSizeList]
    cases hvariants : desc.variants with
    | nil => simp [hvariants] at hslot
    | cons first rest => simpa using (hsizes first (by simp [hvariants])).2
  · cases h

theorem StorageConfig.Describes.exists_layerToLifeCycleIds (h : sc.Describes config registry) :
    ∃ map, sc.layerToLifeCycleIds = some map ∧
      ∀ b attr, sc.bufferAttributes.get? b = some attr → map.get? b.layerId = some attr.lifeCycleId := by
  have hagree : ∀ b b' attr attr', sc.bufferAttributes.get? b = some attr →
      sc.bufferAttributes.get? b' = some attr' → b.layerId = b'.layerId → attr.lifeCycleId = attr'.lifeCycleId := by
    intro b b' attr attr' hb hb' hlayer
    obtain ⟨slot, pool, cb, i, hp, rfl⟩ := exists_place hb
    obtain ⟨slot', pool', cb', i', hp', rfl⟩ := exists_place hb'
    rw [h.slot_eq_of_layer hp hp' hlayer]
    rfl
  -- the entries met so far are recorded, and what is recorded is right
  have hfold : ∀ (rest done : List (BufferId × BufferAttr)) (d : Dict LayerId LifeCycleId),
      done ++ rest = sc.bufferAttributes.entries →
      (∀ entry ∈ done, d.get? entry.1.layerId = some entry.2.lifeCycleId) →
      (∀ b attr lc, sc.bufferAttributes.get? b = some attr → d.get? b.layerId = some lc → lc = attr.lifeCycleId) →
      ∃ map, rest.foldlM addLayerLifeCycle d = some map ∧
        ∀ entry ∈ sc.bufferAttributes.entries, map.get? entry.1.layerId = some entry.2.lifeCycleId := by
    intro rest
    induction rest with
    | nil =>
      intro done d hall hdone _
      rw [append_nil] at hall
      exact ⟨d, rfl, hall ▸ hdone⟩
    | cons next rest ih =>
      intro done d hall hdone hd
      have hnext : sc.bufferAttributes.get? next.1 = some next.2 := by
        apply Dict.mem_entries_iff.1
        rw [← hall]
        simp
      have hlc : (d.get? next.1.layerId).getD next.2.lifeCycleId = next.2.lifeCycleId := by
        cases hget : d.get? next.1.layerId with
        | none => rfl
        | some lc => exact hd _ _ lc hnext hget
      have hget : ∀ layerId, (d.insert next.1.layerId next.2.lifeCycleId).get? layerId =
          if layerId = next.1.layerId then some next.2.lifeCycleId else d.get? layerId := fun _ => d.get?_insert _ _ _
      rw [foldlM_cons, addLayerLifeCycle, if_neg (not_not.2 hlc), hlc]
      apply ih (done ++ [next])
      · simp [← hall]
      · intro entry hentry
        rw [hget]
        split
        · rename_i hlayer
          have hmem : entry ∈ sc.bufferAttributes.entries := by
            rw [← hall]
            simp only [mem_append] at hentry
            simpa using hentry.imp_right Or.inl
          rw [hagree _ _ _ _ hnext (Dict.mem_entries_iff.1 hmem) hlayer.symm]
        · rename_i hlayer
          rcases mem_append.1 hentry with hold | hnew
          · exact hdone entry hold
          · exact absurd (by rw [mem_singleton.1 hnew]) hlayer
      · intro b attr lc hattr hlc
        rw [hget] at hlc
        split at hlc
        · rename_i hlayer
          cases hlc
          exact hagree _ _ _ _ hnext hattr hlayer.symm
        · exact hd b attr lc hattr hlc
  obtain ⟨map, hmap, hentries⟩ := hfold _ [] ∅ rfl nofun nofun
  exact ⟨map, hmap, fun b attr hattr => hentries (b, attr) (Dict.mem_entries_iff.2 hattr)⟩

/-- What the address map of an accepted configuration says about a buffer at a place. -/
structure AddressMap.Describes (m : AddressMap) (sc : StorageConfig) : Prop where
  tables_eq : StorageTables.ofConfig sc = some m.tables
  grouping : m.lifeCycleGrouping = sc.lifeCycleGrouping
  layers : ∀ b attr, sc.bufferAttributes.get? b = some attr → m.layerToLifeCycleIds.get? b.layerId = some attr.lifeCycleId
  slotSizeLists_eq : m.slotSizeLists = sc.slotDescList.map SlotDesc.slotSizeList

theorem AddressMap.exists_ofConfig (h : sc.Describes config registry) (gpu : GpuLevel) (reuse : Bool) :
    ∃ m, AddressMap.ofConfig sc gpu reuse = some m ∧ m.Describes sc := by
  obtain ⟨attrs, hattrs, _⟩ := h.exists_layerAttributes
  obtain ⟨map, hmap, hlayers⟩ := h.exists_layerToLifeCycleIds
  have htables : StorageTables.ofConfig sc = some ⟨sc.bufferAttributes, attrs, sc.slotToPageIndices⟩ := by
    rw [StorageTables.ofConfig, hattrs]
    rfl
  refine ⟨⟨_, sc.lifeCycleGrouping, map, sc.slotDescList.map SlotDesc.slotSizeList, gpu, reuse⟩, ?_, htables, rfl, hlayers, rfl⟩
  rw [ofConfig, htables, hmap]
  rfl

namespace AddressMap.Describes

variable {b : BufferId} {slot : SlotDescVariant} {pool j : Nat} {cb : CoalescedBuffer}

theorem bufferAttr_eq (hm : m.Describes sc) : m.tables.bufferAttr = sc.bufferAttributes := by
  obtain ⟨attrs, -, heq⟩ := Option.bind_eq_some_iff.1 hm.tables_eq
  rw [← Option.some.inj heq]

theorem get?_bufferAttr (h : sc.Describes config registry) (hm : m.Describes sc) (hp : sc.Place b slot pool cb j) :
    m.tables.bufferAttr.get? b = some (sc.attrAt b slot pool cb j) := by
  rw [hm.bufferAttr_eq]
  exact h.get?_bufferAttributes hp

variable {pgIdx : Nat} {lc : LifeCycleId}

theorem slotSize_of_mem (hconfig : createStorageConfig config = some sc) (hm : m.Describes sc) {desc : SlotDesc}
    (hdesc : sc.slotDescList[pgIdx]? = some desc) (hslot : slot ∈ desc.variants) (pool : Nat) :
    m.slotSize pgIdx pool = slot.coalescedBuffers[pool]?.map size := by
  rw [slotSize, hm.slotSizeLists_eq, getElem?_map, hdesc]
  show (desc.slotSizeList)[pool]? = _
  rw [slotSizeList_of_mem hconfig (mem_of_getElem? hdesc) hslot, SlotDescVariant.slotSizeList, getElem?_map]

theorem exists_pool (hconfig : createStorageConfig config = some sc) (hm : m.Describes sc)
    (hp : sc.Place b slot pool cb j) :
    ∃ pgIdx, m.lifeCycleGrouping.get? slot.lifeCycleId = some pgIdx ∧ m.slotSize pgIdx pool = some cb.size := by
  obtain ⟨desc, hdesc, hslot⟩ := mem_flatMap.1 hp.slot_mem
  obtain ⟨pgIdx, hpg⟩ := getElem?_of_mem hdesc
  refine ⟨pgIdx, ?_, ?_⟩
  · rw [hm.grouping]
    apply Dict.get?_ofList
    · have hids := sc.lifeCycleIds_nodup
      rw [map_flatMap] at hids ⊢
      rw [← zipIdx_map_fst 0 sc.slotDescList, flatMap_map] at hids
      simpa [Function.comp_def] using hids
    · rw [mem_flatMap]
      refine ⟨(desc, pgIdx), ?_, mem_map.2 ⟨slot, hslot, rfl⟩⟩
      simpa [mk_mem_zipIdx_iff_getElem?] using hpg
  · rw [hm.slotSize_of_mem hconfig hpg hslot, hp.cb_eq]
    rfl

theorem getPageStride_of_place (h : sc.Describes config registry) (hm : m.Describes sc) (hp : sc.Place b slot pool cb j) :
    ∃ stride, m.getPageStride b.layerId b.role = some stride ∧
      cb.singleBufferSize = (sc.attrAt b slot pool cb j).expansion * stride := by
  obtain ⟨hpos, stride, hsize⟩ := h.expansion_dvd hp
  refine ⟨stride, ?_, hsize⟩
  rw [getPageStride, hm.get?_bufferAttr h hp]
  exact exactDiv_eq_some.2 ⟨hpos.ne', hsize⟩

variable {slotId i : Nat} {bytes : Set Nat} (hconfig : createStorageConfig config = some sc)
  (h : sc.Describes config registry) (hm : m.Describes sc)

include hconfig h hm

theorem subPage_iff :
    m.SubPage lc pgIdx pool slotId b i bytes ↔
      m.lifeCycleGrouping.get? lc = some pgIdx ∧ ∃ slot cb j stride, sc.Place b slot pool cb j ∧ slot.lifeCycleId = lc ∧
        cb.singleBufferSize = (sc.attrAt b slot pool cb j).expansion * stride ∧
        i < (sc.attrAt b slot pool cb j).expansion ∧
        bytes = tile stride ((slotId * cb.numBuffers + j) * (sc.attrAt b slot pool cb j).expansion + i) := by
  have hstart : ∀ n j e p i : Nat, slotId * (e * p * n) + j * (e * p) + i * p = ((slotId * n + j) * e + i) * p := by
    intros
    ring
  constructor
  · intro hsub
    refine ⟨hsub.grouping_eq, ?_⟩
    obtain ⟨attr, slotSize, stride, hattr, rfl, rfl, hi, hslotSize, hstride, rfl⟩ := hsub.bytes_eq
    rw [hm.bufferAttr_eq] at hattr
    obtain ⟨slot, pool, cb, j, hp, rfl⟩ := exists_place hattr
    obtain ⟨stride', hstride', hsize⟩ := hm.getPageStride_of_place h hp
    cases hstride.symm.trans hstride'
    obtain ⟨pgIdx', hpg, hslotSize'⟩ := hm.exists_pool hconfig hp
    cases hsub.grouping_eq.symm.trans hpg
    cases hslotSize.symm.trans hslotSize'
    refine ⟨slot, cb, j, stride, hp, rfl, hsize, hi, ?_⟩
    rw [size, attrAt, hsize, hstart, hstart]
    rfl
  · rintro ⟨hpg, slot, cb, j, stride, hp, hlc, hsize, hi, hbytes⟩
    subst hlc
    obtain ⟨stride', hstride', hsize'⟩ := hm.getPageStride_of_place h hp
    obtain rfl : stride' = stride := Nat.eq_of_mul_eq_mul_left (Nat.zero_lt_of_lt hi) (hsize'.symm.trans hsize)
    obtain ⟨pgIdx', hpg', hslotSize⟩ := hm.exists_pool hconfig hp
    cases hpg.symm.trans hpg'
    refine ⟨hpg, _, _, _, hm.get?_bufferAttr h hp, rfl, rfl, hi, hslotSize, hstride', ?_⟩
    rw [hbytes, size, attrAt, hsize, hstart, hstart]
    rfl

theorem apart {slotId' i' : Nat} {b b' : BufferId} {bytes' : Set Nat} (hsub : m.SubPage lc pgIdx pool slotId b i bytes)
    (hsub' : m.SubPage lc pgIdx pool slotId' b' i' bytes') (hne : (slotId, b, i) ≠ (slotId', b', i')) :
    Disjoint bytes bytes' := by
  obtain ⟨-, slot, cb, j, stride, hp, hlc, hsize, hi, rfl⟩ := (hm.subPage_iff hconfig h).1 hsub
  obtain ⟨-, slot', cb', j', stride', hp', hlc', hsize', hi', rfl⟩ := (hm.subPage_iff hconfig h).1 hsub'
  obtain rfl := inj_on_of_nodup_map sc.lifeCycleIds_nodup hp.slot_mem hp'.slot_mem (hlc.trans hlc'.symm)
  obtain rfl : cb = cb' := Option.some.inj (hp.cb_eq.symm.trans hp'.cb_eq)
  rw [Set.disjoint_left]
  intro x hx hx'
  -- the sub-pages lie in one buffer of one slot, hence are of the same buffer
  have hunit := mem_tile_mul.2 ⟨i, hi, hx⟩
  have hunit' := mem_tile_mul.2 ⟨i', hi', hx'⟩
  rw [← hsize] at hunit
  rw [← hsize'] at hunit'
  have hj : j < cb.numBuffers := (List.getElem?_eq_some_iff.1 hp.b_eq).1
  have hj' : j' < cb.numBuffers := (List.getElem?_eq_some_iff.1 hp'.b_eq).1
  obtain ⟨rfl, rfl⟩ := slot_cell_inj hj hj' (eq_of_mem_tile hunit hunit')
  obtain rfl : b = b' := Option.some.inj (hp.b_eq.symm.trans hp'.b_eq)
  obtain rfl : stride = stride' := Nat.eq_of_mul_eq_mul_left (Nat.zero_lt_of_lt hi) (hsize.symm.trans hsize')
  obtain rfl : i = i' := add_left_cancel (eq_of_mem_tile hx hx')
  exact hne rfl

theorem tiled {size : Nat} (hpg : m.lifeCycleGrouping.get? lc = some pgIdx) (hsize : m.slotSize pgIdx pool = some size)
    (slotId x : Nat) :
    x ∈ Set.Ico (slotId * size) ((slotId + 1) * size) ↔ ∃ b i bytes, m.SubPage lc pgIdx pool slotId b i bytes ∧ x ∈ bytes := by
  have hmem := Dict.mem_of_get?_ofList (hm.grouping ▸ hpg)
  simp only [mem_flatMap, mem_map, Prod.exists, mk_mem_zipIdx_iff_getElem?, Prod.mk.injEq] at hmem
  obtain ⟨desc, pgIdx, hdesc, slot, hslot, hlc, rfl⟩ := hmem
  have hvariant : slot ∈ sc.variants := mem_flatMap.2 ⟨desc, mem_of_getElem? hdesc, hslot⟩
  rw [hm.slotSize_of_mem hconfig hdesc hslot] at hsize
  obtain ⟨cb, hcb, rfl⟩ := Option.map_eq_some_iff.1 hsize
  change x ∈ tile cb.size slotId ↔ _
  rw [size, mul_comm, mem_tile_mul]
  simp only [hm.subPage_iff hconfig h]
  constructor
  · intro ⟨j, hj, hx⟩
    have hp : sc.Place cb.bufferIds[j] slot pool cb j := ⟨hvariant, hcb, getElem?_eq_getElem hj⟩
    obtain ⟨stride, -, hsize⟩ := hm.getPageStride_of_place h hp
    rw [hsize, mem_tile_mul] at hx
    obtain ⟨i, hi, hx⟩ := hx
    exact ⟨_, i, _, ⟨hpg, slot, cb, j, stride, hp, hlc, hsize, hi, rfl⟩, hx⟩
  · intro ⟨b, i, bytes, ⟨_, slot', cb', j, stride, hp, hlc', hstride, hi, hbytes⟩, hx⟩
    obtain rfl := inj_on_of_nodup_map sc.lifeCycleIds_nodup hp.slot_mem hvariant (hlc'.trans hlc.symm)
    obtain rfl : cb' = cb := Option.some.inj (hp.cb_eq.symm.trans hcb)
    refine ⟨j, (List.getElem?_eq_some_iff.1 hp.b_eq).1, ?_⟩
    rw [hstride, mem_tile_mul]
    exact ⟨i, hi, hbytes ▸ hx⟩

end AddressMap.Describes

namespace PageIndexConverter

variable {c : PageIndexConverter} {scratch : Option ScratchDesc} {offset ordinal : Nat} {baseIndices indices : List Int}

theorem exists_blockIndex_offset {baseIndex index : Int}
    (h : c.blockIndex offset scratch ordinal baseIndex = some index) (offset' : Nat) :
    ∃ index', c.blockIndex offset' scratch ordinal baseIndex = some index' := by
  cases scratch with
  | none => exact ⟨_, rfl⟩
  | some scratch =>
    simp only [blockIndex, scratchIndex] at h ⊢
    split at h
    · rename_i hin
      rw [if_pos hin]
      split at h
      · cases h
      rename_i hscale
      rw [if_neg hscale]
      obtain ⟨slotId, hslot, -⟩ := Option.map_eq_some_iff.1 h
      exact ⟨_, by rw [hslot, Option.map_some]⟩
    · rename_i hin
      rw [if_neg hin]
      exact ⟨_, rfl⟩

theorem getElem?_convertLoop_regular {slotId i : Nat} (hok : c.convertLoop offset scratch 0 baseIndices = some indices)
    (hbase : baseIndices[ordinal]? = some (slotId : Int)) (hregular : AddressMap.Regular scratch ordinal)
    (hi : i < c.expansion) :
    indices[ordinal * c.expansion + i]? = some (((slotId * c.scale + offset) * c.expansion + i : Nat) : Int) := by
  obtain ⟨index, hindex, hget⟩ := convertLoop_spec hok hbase
  replace hindex : index = ((slotId * c.scale + offset : Nat) : Int) := by
    cases scratch with
    | none => simpa [blockIndex, natCast_ne_badPageIndex] using hindex.symm
    | some scratch =>
      have hout : ordinal ∉ scratch.range := hregular scratch rfl
      simpa [blockIndex, hout, natCast_ne_badPageIndex] using hindex.symm
  subst hindex
  rw [hget i hi, getElem?_expand c (natCast_ne_badPageIndex _) hi]
  simp

end PageIndexConverter

namespace AddressMap.Describes

variable {b : BufferId} {slot : SlotDescVariant} {pool j : Nat} {cb : CoalescedBuffer}
  (h : sc.Describes config registry) (hm : m.Describes sc) (hp : sc.Place b slot pool cb j)

include h hm hp

theorem getPageIndexUpperBound_of_place (hpos : 0 < cb.singleBufferSize) {pgIdx : Nat}
    (hpg : m.lifeCycleGrouping.get? slot.lifeCycleId = some pgIdx) (hslotSize : m.slotSize pgIdx pool = some cb.size) :
    m.getPageIndexUpperBound b.layerId b.role =
      some (((cb.numBuffers * m.gpu.numSlots pgIdx : Nat) - (j : Int)) * (sc.attrAt b slot pool cb j).expansion) := by
  have hattr := hm.get?_bufferAttr h hp
  have hlayer := hm.layers b _ (h.get?_bufferAttributes hp)
  have hbuffers : exactDiv cb.size cb.singleBufferSize = some cb.numBuffers := exactDiv_eq_some.2 ⟨hpos.ne', rfl⟩
  have hoffset : exactDiv (j * cb.singleBufferSize) cb.singleBufferSize = some j := exactDiv_eq_some.2 ⟨hpos.ne', mul_comm _ _⟩
  simp only [attrAt] at hattr hlayer ⊢
  simp [getPageIndexUpperBound, hlayer, hpg, hattr, hslotSize, hbuffers, hoffset]

theorem sameAddress (hconfig : createStorageConfig config = some sc) (hpos : 0 < cb.singleBufferSize) {slotId i : Nat}
    (hi : i < (sc.attrAt b slot pool cb j).expansion) :
    m.SameAddress b (sc.attrAt b slot pool cb j) slotId i
      (((slotId * cb.numBuffers + 0) * (sc.attrAt b slot pool cb j).expansion + i : Nat) : Int)
      (((slotId * cb.numBuffers + j) * (sc.attrAt b slot pool cb j).expansion + i : Nat) : Int) := by
  obtain ⟨pgIdx, hpg, hslotSize⟩ := hm.exists_pool hconfig hp
  obtain ⟨stride, hstride, hsize⟩ := hm.getPageStride_of_place h hp
  have hbase : ∀ mode, m.getMemPoolBaseAddress b.layerId b.role (some mode) =
      some (m.gpu.poolAddress pgIdx pool + if mode = .shared then j * cb.singleBufferSize else 0) := by
    intro mode
    have haddr : m.slotAddress pgIdx pool 0 = some (m.gpu.poolAddress pgIdx pool) := by
      rw [slotAddress, hslotSize]
      rfl
    rw [getMemPoolBaseAddress, hm.get?_bufferAttr h hp]
    cases mode <;> simp [attrAt, hpg, haddr]
  constructor
  · refine ⟨pgIdx, cb.size, stride, _, _, hpg, hslotSize, hstride, hbase .shared, hbase .perLayer, ?_, ?_⟩
    · simp only [attrAt, size] at hsize ⊢
      rw [hsize]
      push_cast
      ring
    · simp only
      rw [hsize]
      push_cast
      ring
  · refine ⟨pgIdx, _, hpg, hm.getPageIndexUpperBound_of_place h hp hpos hpg hslotSize, fun hslot => ?_⟩
    -- the last slot has a buffer for every offset, so the buffers before this one make up for the offset
    have hj : j < cb.numBuffers := (List.getElem?_eq_some_iff.1 hp.b_eq).1
    have hslots : (slotId + 1) * cb.numBuffers ≤ cb.numBuffers * m.gpu.numSlots pgIdx := by
      rw [mul_comm cb.numBuffers]
      exact Nat.mul_le_mul_right _ hslot
    rw [add_mul] at hslots
    have hunit : ((slotId * cb.numBuffers + 1 : Nat) : Int) ≤ (cb.numBuffers * m.gpu.numSlots pgIdx : Nat) - (j : Int) := by
      omega
    have hbound := Int.mul_le_mul_of_nonneg_right hunit (Int.natCast_nonneg (sc.attrAt b slot pool cb j).expansion)
    refine lt_of_lt_of_le ?_ hbound
    rw [add_zero, ← Nat.cast_mul, Nat.add_mul, one_mul]
    exact Int.ofNat_lt.2 (Nat.add_lt_add_left hi _)

end AddressMap.Describes

/-- Every accepted configuration has a consistent address map: the sub-pages of the buffers of a life cycle tile the
slots of its pools, and both index modes address them. -/
theorem addressMap_consistent (config : KVCacheManagerConfig) (sc : StorageConfig) (gpu : GpuLevel)
    (enableSwaScratchReuse : Bool) (hconfig : createStorageConfig config = some sc) :
    ∃ m, AddressMap.ofConfig sc gpu enableSwaScratchReuse = some m ∧ m.Consistent := by
  obtain ⟨registry, h⟩ := createStorageConfig_spec hconfig
  obtain ⟨m, hmap, hm⟩ := AddressMap.exists_ofConfig h gpu enableSwaScratchReuse
  refine ⟨m, hmap, ?_, ?_, ?_, ?_⟩
  · intro lc pgIdx pool slotId b i bytes slotId' b' i' bytes' hsub hsub' hne
    exact hm.apart hconfig h hsub hsub' hne
  · intro lc pgIdx pool slotSize hpg hsize slotId x
    exact hm.tiled hconfig h hpg hsize slotId x
  · intro b attr hattr hpos
    rw [hm.bufferAttr_eq] at hattr
    obtain ⟨slot, pool, cb, j, hp, rfl⟩ := exists_place hattr
    obtain ⟨-, hc, -⟩ := converter_of_place h hm.tables_eq hp hpos
    exact ⟨_, hc, rfl, fun baseIndices => convertLoop_isSome fun _ _ _ => ⟨_, rfl⟩⟩
  · intro b attr c hattr hc baseIndices scratch indices hshared
    obtain ⟨slot, pool, cb, j, hp, rfl, hpos⟩ := place_of_converter hm.tables_eq hattr hc
    cases hc.symm.trans (converter_of_place h hm.tables_eq hp hpos).2.1
    obtain ⟨indices', hperLayer⟩ := convertLoop_isSome fun k baseIndex hk => by
      obtain ⟨index, hindex, -⟩ := convertLoop_spec hshared hk
      exact exists_blockIndex_offset hindex j
    refine ⟨indices', hperLayer, fun ordinal slotId i hbase hregular hi => ?_⟩
    exact ⟨_, _, getElem?_convertLoop_regular hshared hbase hregular hi,
      getElem?_convertLoop_regular hperLayer hbase hregular hi, hm.sameAddress h hp hconfig hpos hi⟩

theorem addressMap_consistent_shared_pool :
    ∃ sc, createStorageConfig sharedPoolConfig = some sc ∧
      ∃ m, AddressMap.ofConfig sc ⟨fun _ _ => 4096, fun _ => 2⟩ true = some m ∧ m.Consistent :=
  ⟨_, rfl, addressMap_consistent sharedPoolConfig _ ⟨fun _ _ => 4096, fun _ => 2⟩ true rfl⟩

/-- A layer with full attention and one with a sliding window, with buffers of one size. -/
def sharedGroupConfig : KVCacheManagerConfig where
  tokensPerBlock := 1
  layers := [
    .attention { layerId := 0, buffers := [⟨"key", 8, none⟩], slidingWindowSize := none },
    .attention { layerId := 1, buffers := [⟨"key", 8, none⟩], slidingWindowSize := some 1 }]

/-- Life cycles with the same slot sizes share a pool group, whose slots either may use: slot 0 holds the same bytes of
both layers. -/
theorem subPages_of_two_lifeCycles_overlap :
    ∃ sc m, createStorageConfig sharedGroupConfig = some sc ∧
      AddressMap.ofConfig sc ⟨fun _ _ => 4096, fun _ => 2⟩ false = some m ∧
      ∃ bytes, m.SubPage 0 0 0 0 ⟨0, "key"⟩ 0 bytes ∧ m.SubPage 1 0 0 0 ⟨1, "key"⟩ 0 bytes ∧ ¬ Disjoint bytes bytes := by
  refine ⟨_, _, rfl, rfl, Set.Ico 0 8, ⟨rfl, ⟨0, 0, 0, 8, 1⟩, 8, 8, rfl, rfl, rfl, by decide, rfl, rfl, rfl⟩,
    ⟨rfl, ⟨1, 0, 0, 8, 1⟩, 8, 8, rfl, rfl, rfl, by decide, rfl, rfl, rfl⟩, fun hdisjoint => ?_⟩
  have hmem : (0 : Nat) ∈ Set.Ico 0 8 := by simp
  exact Set.disjoint_left.1 hdisjoint hmem hmem

end TrtLlm.KvCache
