import Mathlib
import TrtLlm.Lib.Packing
import TrtLlm.Lib.Tiles
import TrtLlm.KvCache.StorageTables

/-!
# `PageIndexConverter`

From the slots of a sequence's blocks to the page indices of one buffer. Scratch blocks have no slot of their own:
a layer's buffers of all scratch blocks are packed into the scratch slots, `scratchPagesPerBlock` to a block.
-/

namespace TrtLlm.KvCache

open List Option HalfOpenRange StorageTables Packing StorageConfig

inductive PageIndexMode where
  | shared
  | perLayer
deriving DecidableEq, Repr

abbrev badPageIndex : Int := -1

theorem natCast_ne_badPageIndex (n : Nat) : (n : Int) ≠ badPageIndex := by
  show (n : Int) ≠ -1
  omega

structure ScratchDesc where
  range : HalfOpenRange
  slotIds : List Nat
deriving DecidableEq, Repr

structure PageIndexConverter where
  scale : Nat
  expansion : Nat
  layerOffset : Nat
  scratchPagesPerBlock : Nat
deriving DecidableEq, Repr

namespace PageIndexConverter

variable (c : PageIndexConverter)

/-- The index of a scratch block; `none` is an `IndexError`, or the division by a scale of zero. -/
def scratchIndex (appliedLayerOffset : Nat) (scratch : ScratchDesc) (ordinal : Nat) : Option Int :=
  if c.scale = 0 then none
  else
    let totalOffset := (ordinal - scratch.range.beg) * c.scratchPagesPerBlock
    scratch.slotIds[totalOffset / c.scale]?.map fun slotId =>
      ((slotId * c.scale + (totalOffset % c.scale + appliedLayerOffset) % c.scale : Nat) : Int)

def blockIndex (appliedLayerOffset : Nat) (scratch : Option ScratchDesc) (ordinal : Nat) (baseIndex : Int) :
    Option Int :=
  let regular := if baseIndex = badPageIndex then badPageIndex else baseIndex * c.scale + appliedLayerOffset
  match scratch with
  | none => some regular
  | some scratch =>
    if scratch.range.nonempty ∧ ordinal ∈ scratch.range then c.scratchIndex appliedLayerOffset scratch ordinal
    else some regular

def expand (index : Int) : List Int :=
  (List.range c.expansion).map fun i : Nat =>
    if index ≠ badPageIndex then index * c.expansion + (i : Int) else badPageIndex

/-- The loop over the blocks from `ordinal` on. -/
def convertLoop (c : PageIndexConverter) (appliedLayerOffset : Nat) (scratch : Option ScratchDesc) :
    Nat → List Int → Option (List Int)
  | _, [] => some []
  | ordinal, baseIndex :: rest => do
      let index ← c.blockIndex appliedLayerOffset scratch ordinal baseIndex
      let result ← c.convertLoop appliedLayerOffset scratch (ordinal + 1) rest
      pure (c.expand index ++ result)

def call (baseIndices : List Int) (indexMode : Option PageIndexMode) (scratch : Option ScratchDesc) :
    Option (List Int) :=
  match indexMode with
  | none =>
    -- the mode must be given when scratch is active
    if scratch.any (·.range.nonempty) then none else c.convertLoop 0 scratch 0 baseIndices
  | some .shared => c.convertLoop 0 scratch 0 baseIndices
  | some .perLayer => c.convertLoop c.layerOffset scratch 0 baseIndices

end PageIndexConverter

variable (tables : StorageTables)

def getPageIndexConverter (layerId : LayerId) (role : DataRole) : Option PageIndexConverter := do
  let attr ← tables.bufferAttr.get? ⟨layerId, role⟩
  let layerAttr ← tables.layerAttributes.get? layerId
  let scales ← tables.slotToPageIndices.get? attr.lifeCycleId
  let scale ← scales[attr.poolIndex]?
  let layerOffset ← exactDiv attr.offset attr.size
  let slotUtil ← layerAttr.slotUtil[attr.poolIndex]?
  pure ⟨scale, attr.expansion, layerOffset, slotUtil⟩

variable {c : PageIndexConverter} {ord : Nat} {b : BufferId} {attr : BufferAttr}

namespace PageIndexConverter

theorem getElem?_expand (c : PageIndexConverter) {index : Int} (hindex : index ≠ badPageIndex) {i : Nat}
    (hi : i < c.expansion) : (c.expand index)[i]? = some (index * c.expansion + i) := by
  rw [expand, getElem?_map, getElem?_range hi, map_some, if_pos hindex]

theorem length_expand (c : PageIndexConverter) (index : Int) : (c.expand index).length = c.expansion := by
  rw [expand, length_map, length_range]

variable {offset start : Nat}

/-- Block `start + j` gets its index, expanded, at position `j` of the result. -/
theorem convertLoop_spec {scratch : Option ScratchDesc}
    {base indices : List Int} (h : c.convertLoop offset scratch start base = some indices) {j : Nat}
    {baseIndex : Int} (hj : base[j]? = some baseIndex) :
    ∃ index, c.blockIndex offset scratch (start + j) baseIndex = some index ∧
      ∀ i < c.expansion, indices[j * c.expansion + i]? = (c.expand index)[i]? := by
  induction base generalizing start indices j with
  | nil => cases hj
  | cons base rest ih =>
    obtain ⟨index, hindex, h⟩ := bind_eq_some_iff.1 h
    obtain ⟨result, hrest, h⟩ := bind_eq_some_iff.1 h
    cases h
    cases j with
    | zero =>
      cases hj
      refine ⟨index, hindex, fun i hi => ?_⟩
      rw [zero_mul, zero_add, getElem?_append_left (by rwa [length_expand])]
    | succ j =>
      obtain ⟨index', hindex', hget⟩ := ih hrest hj
      refine ⟨index', by rwa [add_right_comm] at hindex', fun i hi => ?_⟩
      rw [getElem?_append_right (by rw [length_expand, Nat.succ_mul]; omega), length_expand, ← hget i hi]
      congr 1
      rw [Nat.succ_mul]
      omega

theorem convertLoop_isSome {scratch : Option ScratchDesc} {base : List Int}
    (hblocks : ∀ j baseIndex, base[j]? = some baseIndex →
      ∃ index, c.blockIndex offset scratch (start + j) baseIndex = some index) :
    ∃ indices, c.convertLoop offset scratch start base = some indices := by
  induction base generalizing start with
  | nil => exact ⟨[], rfl⟩
  | cons base rest ih =>
    obtain ⟨index, hindex⟩ := hblocks 0 base rfl
    have hrest : ∀ j baseIndex, rest[j]? = some baseIndex →
        ∃ index, c.blockIndex offset scratch (start + 1 + j) baseIndex = some index := by
      intro j b hj
      obtain ⟨index, hindex⟩ := hblocks (j + 1) b hj
      exact ⟨index, by rwa [add_right_comm]⟩
    obtain ⟨result, hresult⟩ := ih hrest
    refine ⟨c.expand index ++ result, ?_⟩
    rw [convertLoop, show c.blockIndex offset scratch start base = some index from hindex, hresult]
    rfl

theorem blockIndex_scratch (hscale : 0 < c.scale) (offset : Nat) {scratch : ScratchDesc}
    (hordinal : ord ∈ scratch.range) (baseIndex : Int) :
    c.blockIndex offset (some scratch) ord baseIndex =
      scratch.slotIds[slotIndex c.scale c.scratchPagesPerBlock (ord - scratch.range.beg)]?.map fun slotId =>
        ((slotId * c.scale + cell c.scale c.scratchPagesPerBlock (ord - scratch.range.beg) offset : Nat) : Int) := by
  have hrange := mem_iff.1 hordinal
  have hnonempty : scratch.range.nonempty = true := decide_eq_true (by omega)
  simp only [blockIndex, hnonempty, hordinal, scratchIndex, pos_iff_ne_zero.1 hscale]
  rfl

end PageIndexConverter

def BufferAttr.pageSize (attr : BufferAttr) : Nat := attr.size / attr.expansion

def BufferAttr.pageBytes (attr : BufferAttr) (index : Int) : Set Int :=
  Set.Ico (index * attr.pageSize) ((index + 1) * attr.pageSize)

def slotBytes (scale size slotId : Nat) : Set Int :=
  Set.Ico ((slotId * (scale * size) : Nat) : Int) (((slotId + 1) * (scale * size) : Nat) : Int)

/-- `index` is the `i`-th page that buffer `b`'s converter gives block `ordinal`. -/
structure AssignedPage (baseIndices : List Int) (scratch : ScratchDesc) (b : BufferId) (ordinal i : Nat)
    (attr : BufferAttr) (c : PageIndexConverter) (index : Int) : Prop where
  attr_eq : tables.bufferAttr.get? b = some attr
  converter_eq : getPageIndexConverter tables b.layerId b.role = some c
  i_lt : i < c.expansion
  index_eq : ∃ indices, c.call baseIndices (some .perLayer) (some scratch) = some indices ∧
    indices[ordinal * c.expansion + i]? = some index

/-- The conversion succeeds for every buffer of a layer in a pool, puts the pages of scratch blocks into scratch slots,
and gives no two of them a common byte. -/
structure ScratchPagesApart (baseIndices : List Int) (scratch : ScratchDesc) (layerId : LayerId) (poolIndex : Nat) :
    Prop where
  inBounds : ∀ b attr c, b.layerId = layerId → tables.bufferAttr.get? b = some attr → attr.poolIndex = poolIndex →
    getPageIndexConverter tables b.layerId b.role = some c →
    ∃ indices, c.call baseIndices (some .perLayer) (some scratch) = some indices
  inSlots : ∀ b ordinal i attr c index, b.layerId = layerId → attr.poolIndex = poolIndex → ordinal ∈ scratch.range →
    AssignedPage tables baseIndices scratch b ordinal i attr c index →
    ∃ slotId ∈ scratch.slotIds, attr.pageBytes index ⊆ slotBytes c.scale attr.size slotId
  apart : ∀ b ordinal i attr c index b' ordinal' i' attr' c' index', b.layerId = layerId → b'.layerId = layerId →
    attr.poolIndex = poolIndex → attr'.poolIndex = poolIndex → ordinal ∈ scratch.range → ordinal' ∈ scratch.range →
    AssignedPage tables baseIndices scratch b ordinal i attr c index →
    AssignedPage tables baseIndices scratch b' ordinal' i' attr' c' index' →
    (b, ordinal, i) ≠ (b', ordinal', i') → Disjoint (attr.pageBytes index) (attr'.pageBytes index')

variable {sc : StorageConfig} {config : KVCacheManagerConfig} {registry : List LifeCycle} {tables : StorageTables}

theorem converter_of_place (h : sc.Describes config registry) (htables : ofConfig sc = some tables)
    {slot : SlotDescVariant} {pool i : Nat} {cb : CoalescedBuffer} (hp : sc.Place b slot pool cb i)
    (hsize : 0 < cb.singleBufferSize) : tables.bufferAttr.get? b = some (sc.attrAt b slot pool cb i) ∧
    getPageIndexConverter tables b.layerId b.role = some ⟨cb.numBuffers, (sc.attrAt b slot pool cb i).expansion, i,
      cb.bufferIds.countP (·.layerId = b.layerId)⟩ ∧
    (cb.bufferIds.countP (·.layerId = b.layerId) : Rat) / cb.numBuffers ≤ tables.slotUtilFracMax slot.lifeCycleId := by
  obtain ⟨attrs, hattrs, heq⟩ := bind_eq_some_iff.1 htables
  cases heq
  have hattr := h.get?_bufferAttributes hp
  let use : StorageConfig.LayerUse := ⟨b.layerId, slot.lifeCycleId, slot.coalescedBuffers.length, pool,
    cb.bufferIds.countP (·.layerId = b.layerId), cb.numBuffers⟩
  have huse : use ∈ sc.layerUses := mem_layerUses.2 ⟨slot, cb, hp.slot_mem, hp.cb_eq, rfl, rfl, rfl,
    countP_pos_iff.2 ⟨b, mem_of_getElem? hp.b_eq, by simp⟩, rfl⟩
  obtain ⟨_, hsame, hrecorded⟩ := h.exists_layerAttributes
  cases hattrs.symm.trans hsame
  obtain ⟨layerAttr, hlayerAttr, hrec⟩ := hrecorded use huse
  have hscales : sc.slotToPageIndices.get? slot.lifeCycleId = some (slot.coalescedBuffers.map CoalescedBuffer.numBuffers) := by
    refine Dict.get?_ofList ?_ (mem_map.2 ⟨slot, hp.slot_mem, rfl⟩)
    rw [List.map_map]
    exact sc.lifeCycleIds_nodup
  have hscale : (slot.coalescedBuffers.map CoalescedBuffer.numBuffers)[pool]? = some cb.numBuffers := by
    rw [getElem?_map, hp.cb_eq, map_some]
  have hoffset : exactDiv (i * cb.singleBufferSize) cb.singleBufferSize = some i := exactDiv_eq_some.2 ⟨hsize.ne', mul_comm _ _⟩
  have hlayer : attrs.get? b.layerId = some layerAttr := hlayerAttr
  have hutil : layerAttr.slotUtil[pool]? = some (cb.bufferIds.countP (·.layerId = b.layerId)) := hrec.slotUtil
  refine ⟨hattr, ?_, ?_⟩
  · simp only [getPageIndexConverter, hattr, hlayer, bind_eq_bind, bind_some, attrAt, hscales, hscale, hoffset, hutil]
    rfl
  · have hle : layerAttr.slotUtilFracMax ≤ slotUtilFracMax
        ⟨sc.bufferAttributes, attrs, sc.slotToPageIndices⟩ layerAttr.lifeCycleId :=
      le_slotUtilFracMax hlayer
    rw [hrec.lifeCycleId] at hle
    exact hrec.frac.trans hle

theorem place_of_converter (htables : ofConfig sc = some tables)
    (hattr : tables.bufferAttr.get? b = some attr) (hc : getPageIndexConverter tables b.layerId b.role = some c) :
    ∃ slot pool cb j, sc.Place b slot pool cb j ∧ attr = sc.attrAt b slot pool cb j ∧ 0 < cb.singleBufferSize := by
  obtain ⟨attrs, hattrs, heq⟩ := bind_eq_some_iff.1 htables
  cases heq
  obtain ⟨slot, pool, cb, j, hp, rfl⟩ := exists_place hattr
  refine ⟨slot, pool, cb, j, hp, rfl, ?_⟩
  obtain ⟨attr', hattr', hc⟩ := bind_eq_some_iff.1 hc
  cases hattr.symm.trans hattr'
  obtain ⟨layerAttr, -, hc⟩ := bind_eq_some_iff.1 hc
  obtain ⟨scales, -, hc⟩ := bind_eq_some_iff.1 hc
  obtain ⟨scale, -, hc⟩ := bind_eq_some_iff.1 hc
  obtain ⟨layerOffset, hdiv, -⟩ := bind_eq_some_iff.1 hc
  exact pos_of_ne_zero (exactDiv_eq_some.1 hdiv).1

theorem pageBytes_natCast (index : Nat) : attr.pageBytes index = Nat.cast '' tile attr.pageSize index := by
  rw [tile, Nat.image_cast_int_Ico]
  rfl

theorem tile_subset {size slotId scale cell : Nat} (hcell : cell < scale) :
    tile size (slotId * scale + cell) ⊆ tile (scale * size) slotId :=
  fun _ hx => mem_tile_mul.2 ⟨cell, hcell, hx⟩

theorem size_eq_pages (hdvd : attr.expansion ∣ attr.size) : attr.size = attr.expansion * attr.pageSize :=
  (Nat.mul_div_cancel' hdvd).symm

theorem unit_mem_pageBytes (hpos : 0 < attr.size) (hdvd : attr.expansion ∣ attr.size) (unit : Nat) :
    ((unit * attr.size : Nat) : Int) ∈ attr.pageBytes (unit * attr.expansion + (0 : Nat)) := by
  have hpage : 0 < attr.pageSize := Nat.div_pos (Nat.le_of_dvd hpos hdvd) (Nat.pos_of_dvd_of_pos hdvd hpos)
  rw [← Nat.cast_mul, ← Nat.cast_add, pageBytes_natCast]
  apply Set.mem_image_of_mem
  rw [mem_tile, size_eq_pages hdvd, ← mul_assoc, Nat.mul_div_cancel _ hpage]
  exact ⟨hpage, rfl⟩

section Pool

open PageIndexConverter

variable {layerId : LayerId} {slot : SlotDescVariant} {pool : Nat} {cb : CoalescedBuffer} {base : List Int}
  {scratch : ScratchDesc}

/-- The converter of a layer's buffer at position `j` of a coalesced buffer. -/
def poolConverter (sc : StorageConfig) (layerId : LayerId) (cb : CoalescedBuffer) (b : BufferId) (j : Nat) :
    PageIndexConverter :=
  ⟨cb.numBuffers, (sc.expansion.get? b).getD 1, j, cb.bufferIds.countP (·.layerId = layerId)⟩

/-- The place of a block's `j`-th buffer in scratch slot `slotId`, counted in buffers over all slots. -/
def scratchUnit (cb : CoalescedBuffer) (layerId : LayerId) (scratch : ScratchDesc) (slotId ordinal j : Nat) : Nat :=
  slotId * cb.numBuffers + cell cb.numBuffers (cb.bufferIds.countP (·.layerId = layerId)) (ordinal - scratch.range.beg) j

variable {b₀ : BufferId} {j₀ j i : Nat}

theorem numBuffers_pos (hp : sc.Place b slot pool cb j) : 0 < cb.numBuffers :=
  Nat.zero_lt_of_lt (List.getElem?_eq_some_iff.1 hp.b_eq).1

variable {index : Int} {size slotId cell : Nat}

theorem assignedPage_index (hp : sc.Place b slot pool cb j)
    (hcover : scratch.range.stop ≤ base.length) (hordinal : ord ∈ scratch.range)
    (h : AssignedPage tables base scratch b ord i attr (poolConverter sc layerId cb b j) index) :
    ∃ slotId, scratch.slotIds[slotIndex cb.numBuffers (cb.bufferIds.countP (·.layerId = layerId))
        (ord - scratch.range.beg)]? = some slotId ∧
      index = scratchUnit cb layerId scratch slotId ord j * (sc.attrAt b slot pool cb j).expansion + i := by
  obtain ⟨indices, hcall, hindex⟩ := h.index_eq
  have hlt : ord < base.length := (mem_iff.1 hordinal).2.trans_le hcover
  obtain ⟨unit, hunit, hget⟩ := convertLoop_spec hcall (getElem?_eq_getElem hlt)
  rw [zero_add, blockIndex_scratch (numBuffers_pos hp) _ hordinal] at hunit
  obtain ⟨slotId, hslot, rfl⟩ := map_eq_some_iff.1 hunit
  refine ⟨slotId, hslot, ?_⟩
  rw [hget i h.i_lt, getElem?_expand _ (natCast_ne_badPageIndex _) h.i_lt] at hindex
  exact (some.inj hindex).symm

theorem slot_cell_inj {scale slotId' cell' : Nat} (hcell : cell < scale) (hcell' : cell' < scale)
    (heq : slotId * scale + cell = slotId' * scale + cell') : slotId = slotId' ∧ cell = cell' := by
  have hslot : slotId = slotId' := by
    have h := congrArg (· / scale) heq
    simpa only [mul_comm _ scale, Nat.mul_add_div (Nat.zero_lt_of_lt hcell), Nat.div_eq_of_lt hcell,
      Nat.div_eq_of_lt hcell', add_zero] using h
  subst hslot
  exact ⟨rfl, by omega⟩

variable (h : sc.Describes config registry) (htables : ofConfig sc = some tables) (hp₀ : sc.Place b₀ slot pool cb j₀)

include h htables hp₀

theorem place_in_pool (hlayer : b.layerId = b₀.layerId) (hattr : tables.bufferAttr.get? b = some attr)
    (hpool : attr.poolIndex = pool) (hc : getPageIndexConverter tables b.layerId b.role = some c) :
    ∃ j, sc.Place b slot pool cb j ∧ attr = sc.attrAt b slot pool cb j ∧ c = poolConverter sc b₀.layerId cb b j := by
  obtain ⟨slot', pool', cb', j, hp, rfl, hsize⟩ := place_of_converter htables hattr hc
  obtain rfl := h.slot_eq_of_layer hp hp₀ hlayer
  obtain rfl : pool' = pool := hpool
  obtain rfl : cb' = cb := some.inj (hp.cb_eq.symm.trans hp₀.cb_eq)
  obtain ⟨-, hc', -⟩ := converter_of_place h htables hp hsize
  rw [hlayer] at hc hc'
  exact ⟨j, hp, rfl, some.inj (hc.symm.trans hc')⟩

theorem assignedPage_in_unit (hcover : scratch.range.stop ≤ base.length) (hlayer : b.layerId = b₀.layerId)
    (hpool : attr.poolIndex = pool) (hordinal : ord ∈ scratch.range)
    (hpage : AssignedPage tables base scratch b ord i attr c index) :
    ∃ j slotId, sc.Place b slot pool cb j ∧ attr.size = cb.singleBufferSize ∧ c.scale = cb.numBuffers ∧
      attr.expansion = (sc.expansion.get? b).getD 1 ∧
      scratch.slotIds[slotIndex cb.numBuffers (cb.bufferIds.countP (·.layerId = b₀.layerId))
        (ord - scratch.range.beg)]? = some slotId ∧
      index = scratchUnit cb b₀.layerId scratch slotId ord j * attr.expansion + i ∧
      attr.pageBytes index ⊆ Nat.cast '' tile cb.singleBufferSize (scratchUnit cb b₀.layerId scratch slotId ord j) := by
  obtain ⟨j, hp, rfl, rfl⟩ := place_in_pool h htables hp₀ hlayer hpage.attr_eq hpool hpage.converter_eq
  obtain ⟨slotId, hslot, rfl⟩ := assignedPage_index hp hcover hordinal hpage
  refine ⟨j, slotId, hp, rfl, rfl, rfl, hslot, rfl, ?_⟩
  change _ ⊆ Nat.cast '' tile (sc.attrAt b slot pool cb j).size _
  rw [← Nat.cast_mul, ← Nat.cast_add, pageBytes_natCast, size_eq_pages (h.expansion_dvd hp).2]
  exact Set.image_mono (tile_subset hpage.i_lt)

variable (hsize : 0 < cb.singleBufferSize)
  (hlen : scratch.slotIds.length = ⌈(scratch.range.length : Rat) * tables.slotUtilFracMax slot.lifeCycleId⌉.toNat)

include hsize hlen

theorem call_isSome (base : List Int) : ∃ indices,
    (poolConverter sc b₀.layerId cb b₀ j₀).call base (some .perLayer) (some scratch) = some indices := by
  refine convertLoop_isSome fun ord baseIndex _ => ?_
  rw [zero_add]
  by_cases hordinal : ord ∈ scratch.range
  · have hrange := mem_iff.1 hordinal
    have hutil : 0 < cb.bufferIds.countP (·.layerId = b₀.layerId) := countP_pos_iff.2 ⟨b₀, mem_of_getElem? hp₀.b_eq, by simp⟩
    have hfit := slotIndex_lt_ceil (n := scratch.range.length) (b := ord - scratch.range.beg)
      (numBuffers_pos hp₀) hutil (by rw [HalfOpenRange.length]; omega) (converter_of_place h htables hp₀ hsize).2.2
    rw [← hlen] at hfit
    rw [blockIndex_scratch (numBuffers_pos hp₀) _ hordinal]
    exact ⟨_, by rw [show (poolConverter sc b₀.layerId cb b₀ j₀).scale = cb.numBuffers from rfl,
      show (poolConverter sc b₀.layerId cb b₀ j₀).scratchPagesPerBlock = cb.bufferIds.countP (·.layerId = b₀.layerId) from rfl,
      getElem?_eq_getElem hfit, map_some]⟩
  · simp only [blockIndex, hordinal, and_false]
    exact ⟨_, rfl⟩

variable (hcover : scratch.range.stop ≤ base.length)

include hcover

theorem exists_assignedPage (hordinal : ord ∈ scratch.range) (hi : i < (sc.attrAt b₀ slot pool cb j₀).expansion) :
    ∃ index, AssignedPage tables base scratch b₀ ord i (sc.attrAt b₀ slot pool cb j₀)
      (poolConverter sc b₀.layerId cb b₀ j₀) index := by
  obtain ⟨hattr, hc, -⟩ := converter_of_place h htables hp₀ hsize
  obtain ⟨indices, hcall⟩ := call_isSome h htables hp₀ hsize hlen base
  have hlt : ord < base.length := (mem_iff.1 hordinal).2.trans_le hcover
  obtain ⟨index, -, hget⟩ := convertLoop_spec hcall (getElem?_eq_getElem hlt)
  have hexp := getElem?_eq_getElem (l := (poolConverter sc b₀.layerId cb b₀ j₀).expand index)
    (by rw [length_expand]; exact hi)
  exact ⟨_, hattr, hc, hi, indices, hcall, (hget i hi).trans hexp⟩

theorem scratchPagesApart_of_fits (hnodup : scratch.slotIds.Nodup)
    (hfits : cb.bufferIds.countP (·.layerId = b₀.layerId) ∣ cb.numBuffers ∨
      scratch.range.length * cb.bufferIds.countP (·.layerId = b₀.layerId) ≤ cb.numBuffers) :
    ScratchPagesApart tables base scratch b₀.layerId pool := by
  have hs := numBuffers_pos hp₀
  obtain ⟨o, u, hou, hu, hrun⟩ := h.exists_run hp₀
  refine ⟨?_, ?_, ?_⟩
  · intro b attr c hlayer hattr hpool hc
    obtain ⟨j, hp, -, rfl⟩ := place_in_pool h htables hp₀ hlayer hattr hpool hc
    rw [← hlayer]
    exact call_isSome h htables hp hsize hlen base
  · intro b ord i attr c index hlayer hpool hordinal hpage
    obtain ⟨j, slotId, hp, hattr, hscale, -, hslot, -, hbytes⟩ :=
      assignedPage_in_unit h htables hp₀ hcover hlayer hpool hordinal hpage
    refine ⟨slotId, mem_of_getElem? hslot, ?_⟩
    rw [hattr, hscale, slotBytes, ← Nat.image_cast_int_Ico]
    exact hbytes.trans (Set.image_mono (tile_subset (cell_lt hs _ _ _)))
  · intro b ord i attr c index b' ordinal' i' attr' c' index' hlayer hlayer' hpool hpool' hordinal hordinal' hpage hpage' hne
    obtain ⟨j, slotId, hp, hsz, -, hexp, hslot, hindex, hbytes⟩ :=
      assignedPage_in_unit h htables hp₀ hcover hlayer hpool hordinal hpage
    obtain ⟨j', slotId', hp', hsz', -, hexp', hslot', hindex', hbytes'⟩ :=
      assignedPage_in_unit h htables hp₀ hcover hlayer' hpool' hordinal' hpage'
    rw [Set.disjoint_left]
    intro x hx hx'
    -- a common byte means a common sub-page, hence the same slot and cell, hence the same block and buffer
    obtain ⟨n, hn, rfl⟩ := hbytes hx
    obtain ⟨n', hn', heq⟩ := hbytes' hx'
    have hunit := eq_of_mem_tile hn (Int.natCast_inj.1 heq ▸ hn')
    obtain ⟨rfl, hcell⟩ := slot_cell_inj (cell_lt hs _ _ _) (cell_lt hs _ _ _) hunit
    have hslotIndex := (List.getElem?_inj (List.getElem?_eq_some_iff.1 hslot).1 hnodup).1 (hslot.trans hslot'.symm)
    obtain ⟨hj, hj'⟩ := (hrun j b hp.b_eq).1 hlayer
    obtain ⟨hk, hk'⟩ := (hrun j' b' hp'.b_eq).1 hlayer'
    have hr := mem_iff.1 hordinal
    have hr' := mem_iff.1 hordinal'
    rw [show j = o + (j - o) by omega, show j' = o + (j' - o) by omega] at hcell
    obtain ⟨hblock, hbuffer⟩ := cell_injective hs hfits (by rw [HalfOpenRange.length]; omega)
      (by rw [HalfOpenRange.length]; omega) (by omega) (by omega) hslotIndex hcell
    obtain rfl : ord = ordinal' := by omega
    obtain rfl : j = j' := by omega
    obtain rfl : b = b' := some.inj (hp.b_eq.symm.trans hp'.b_eq)
    obtain rfl : attr = attr' := some.inj (hpage.attr_eq.symm.trans hpage'.attr_eq)
    have hnonneg : (0 : Int) ≤ attr.pageSize := Int.natCast_nonneg _
    have hlt := lt_of_mul_lt_mul_right (hx.1.trans_lt hx'.2) hnonneg
    have hlt' := lt_of_mul_lt_mul_right (hx'.1.trans_lt hx.2) hnonneg
    have heq : index = index' := by omega
    rw [hindex, hindex', add_right_inj] at heq
    exact hne (by rw [Int.natCast_inj.1 heq])

theorem fits_of_scratchPagesApart (hapart : ScratchPagesApart tables base scratch b₀.layerId pool) :
    cb.bufferIds.countP (·.layerId = b₀.layerId) ∣ cb.numBuffers ∨
      scratch.range.length * cb.bufferIds.countP (·.layerId = b₀.layerId) ≤ cb.numBuffers := by
  obtain ⟨o, u, hou, hu, hrun⟩ := h.exists_run hp₀
  by_contra hnot
  rw [not_or, not_le, ← hu] at hnot
  have hupos : 0 < u := hu ▸ countP_pos_iff.2 ⟨b₀, mem_of_getElem? hp₀.b_eq, by simp⟩
  obtain ⟨t, k, ht, htn, hk, hslots, hcells⟩ := exists_cell_eq hupos (by omega) hnot.1 hnot.2 o
  -- block `t` wraps around: its `k`-th buffer lands on the first buffer of block 0
  have hplace : ∀ k < u, ∃ b, sc.Place b slot pool cb (o + k) ∧ b.layerId = b₀.layerId := by
    intro k hk
    have hlt : o + k < cb.bufferIds.length := by
      rw [CoalescedBuffer.numBuffers] at hou
      omega
    refine ⟨cb.bufferIds[o + k], ⟨hp₀.slot_mem, hp₀.cb_eq, getElem?_eq_getElem hlt⟩, ?_⟩
    exact (hrun (o + k) _ (getElem?_eq_getElem hlt)).2 (by omega)
  obtain ⟨b, hp, hb⟩ := hplace k hk
  obtain ⟨b', hp', hb'⟩ := hplace 0 hupos
  have hordinal : ∀ t < scratch.range.length, scratch.range.beg + t ∈ scratch.range := by
    intro t ht
    rw [HalfOpenRange.length] at ht
    exact mem_iff.2 (by omega)
  obtain ⟨index, hpage⟩ := exists_assignedPage h htables hp hsize hlen hcover (hordinal t htn) (h.expansion_dvd hp).1
  obtain ⟨index', hpage'⟩ := exists_assignedPage h htables hp' hsize hlen hcover (hordinal 0 (by omega)) (h.expansion_dvd hp').1
  obtain ⟨slotId, hslot, rfl⟩ := assignedPage_index hp hcover (hordinal t htn) hpage
  obtain ⟨slotId', hslot', rfl⟩ := assignedPage_index hp' hcover (hordinal 0 (by omega)) hpage'
  simp only [scratchUnit, hb, hb', ← hu, Nat.add_sub_cancel_left] at hslot hslot' hpage hpage'
  rw [hslots, hslot'] at hslot
  cases hslot
  rw [hcells] at hpage
  have hdisjoint := hapart.apart _ _ _ _ _ _ _ _ _ _ _ _ hb hb' rfl rfl (hordinal t htn) (hordinal 0 (by omega)) hpage
    hpage'
    (fun heq => by
      have := (Prod.mk.inj (Prod.mk.inj heq).2).1
      omega)
  exact Set.disjoint_left.1 hdisjoint (unit_mem_pageBytes hsize (h.expansion_dvd hp).2 _)
    (unit_mem_pageBytes hsize (h.expansion_dvd hp').2 _)

end Pool

/-- For every accepted configuration, layer and pool with one of its buffers, the scratch pages are in bounds and inside
the scratch slots, and they keep apart exactly when the number of the layer's buffers in a slot divides that of all
buffers in it or all scratch blocks fit into one slot. -/
theorem scratchPagesApart_iff (config : KVCacheManagerConfig) (sc : StorageConfig) (tables : StorageTables)
    (hconfig : createStorageConfig config = some sc) (htables : ofConfig sc = some tables)
    (layerId : LayerId) (role : DataRole) (attr : BufferAttr) (c : PageIndexConverter)
    (hattr : tables.bufferAttr.get? ⟨layerId, role⟩ = some attr)
    (hc : getPageIndexConverter tables layerId role = some c) (scratch : ScratchDesc) (hnodup : scratch.slotIds.Nodup)
    (hlen : scratch.slotIds.length = ⌈(scratch.range.length : Rat) * tables.slotUtilFracMax attr.lifeCycleId⌉.toNat)
    (baseIndices : List Int) (hcover : scratch.range.stop ≤ baseIndices.length) :
    ScratchPagesApart tables baseIndices scratch layerId attr.poolIndex ↔
      c.scratchPagesPerBlock ∣ c.scale ∨ scratch.range.length * c.scratchPagesPerBlock ≤ c.scale := by
  obtain ⟨registry, h⟩ := createStorageConfig_spec hconfig
  obtain ⟨slot, pool, cb, j₀, hp₀, rfl, hsize⟩ := place_of_converter htables hattr hc
  obtain ⟨j, -, -, rfl⟩ := place_in_pool h htables hp₀ rfl hattr rfl hc
  constructor
  · intro hapart
    exact fits_of_scratchPagesApart h htables hp₀ hsize hlen hcover hapart
  · intro hfits
    exact scratchPagesApart_of_fits h htables hp₀ hsize hlen hcover hnodup hfits

/-- Two layers of one life cycle with buffers of one size: the first has two of them, the second one. -/
def sharedPoolConfig : KVCacheManagerConfig where
  tokensPerBlock := 1
  layers := [
    .attention { layerId := 0, buffers := [⟨"key", 8, none⟩, ⟨"value", 8, none⟩], slidingWindowSize := some 1 },
    .attention
      { layerId := 1, buffers := [⟨"key", 8, none⟩], slidingWindowSize := some 1, roles_nodup := nodup_singleton _ }]

theorem scratchPagesApart_iff_single_buffer :
    ∃ sc tables, createStorageConfig sharedPoolConfig = some sc ∧ ofConfig sc = some tables ∧
      ScratchPagesApart tables [-1, -1] ⟨⟨0, 2⟩, [0, 1]⟩ 1 0 := by
  refine ⟨_, _, rfl, rfl, ?_⟩
  exact (scratchPagesApart_iff sharedPoolConfig _ _ rfl rfl 1 "key" _ _ rfl rfl ⟨⟨0, 2⟩, [0, 1]⟩ (by decide)
    (by decide +kernel) [-1, -1] (by decide)).2 (.inl (by decide))

/-- Block 1 of the layer with two buffers starts in the last third of the slot; its second buffer wraps around onto the
first of block 0. -/
theorem scratchPages_wrap_around :
    ∃ sc tables, createStorageConfig sharedPoolConfig = some sc ∧ ofConfig sc = some tables ∧
      [0, 1].length = ⌈((2 : Nat) : Rat) * tables.slotUtilFracMax 0⌉.toNat ∧
      ¬ ScratchPagesApart tables [-1, -1] ⟨⟨0, 2⟩, [0, 1]⟩ 0 0 := by
  refine ⟨_, _, rfl, rfl, by decide +kernel, fun hapart => ?_⟩
  have hdisjoint := hapart.apart ⟨0, "key"⟩ 0 0 ⟨0, 0, 0, 8, 1⟩ ⟨3, 1, 0, 2⟩ 0 ⟨0, "value"⟩ 1 0 ⟨0, 0, 8, 8, 1⟩
    ⟨3, 1, 1, 2⟩ 0
    rfl rfl rfl rfl (by decide) (by decide) ⟨rfl, rfl, by decide, [0, 2], rfl, rfl⟩
    ⟨rfl, rfl, by decide, [1, 0], rfl, rfl⟩ (by decide)
  have hkey : (0 : Int) ∈ BufferAttr.pageBytes ⟨0, 0, 0, 8, 1⟩ 0 := ⟨by decide, by decide⟩
  have hvalue : (0 : Int) ∈ BufferAttr.pageBytes ⟨0, 0, 8, 8, 1⟩ 0 := ⟨by decide, by decide⟩
  exact Set.disjoint_left.1 hdisjoint hkey hvalue

end TrtLlm.KvCache
