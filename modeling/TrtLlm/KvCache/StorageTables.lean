import TrtLlm.KvCache.StorageConfig

/-!
# The tables of the storage manager

What the tables computed from a layout say about a buffer: its place in the slot of its life cycle, the number of
buffers it shares its pool with, and how many of those are its own layer's.
-/

namespace TrtLlm.KvCache

open List CoalescedBuffer LayerConfig Dict

variable {sc : StorageConfig} {config : KVCacheManagerConfig} {registry : List LifeCycle} {tables : StorageTables}

/-- Buffer `b` is the `i`-th buffer of `cb`, which is the coalesced buffer of `slot` in pool `pool`. -/
structure StorageConfig.Place (sc : StorageConfig) (b : BufferId) (slot : SlotDescVariant) (pool : Nat)
    (cb : CoalescedBuffer) (i : Nat) : Prop where
  slot_mem : slot ∈ sc.variants
  cb_eq : slot.coalescedBuffers[pool]? = some cb
  b_eq : cb.bufferIds[i]? = some b

variable {b : BufferId} {slot : SlotDescVariant} {pool : Nat} {cb : CoalescedBuffer}

namespace StorageConfig.Describes

variable {i pool' i' : Nat} {slot' : SlotDescVariant} {cb' : CoalescedBuffer} (h : sc.Describes config registry)
  (hp : sc.Place b slot pool cb i)

include h hp

theorem layer_of_place :
    ∃ layer ∈ config.layers, lifeCycleIdOf registry config.tokensPerBlock layer = some slot.lifeCycleId ∧
      b ∈ layer.idsOfSize config.tokensPerBlock cb.singleBufferSize := by
  have hmem := mem_of_getElem? hp.b_eq
  rw [h.bufferIds_eq slot hp.slot_mem cb (mem_of_getElem? hp.cb_eq)] at hmem
  obtain ⟨layer, hlayer, hb⟩ := mem_flatMap.1 hmem
  split at hb
  · rename_i hid
    exact ⟨layer, hlayer, hid, hb⟩
  · cases hb

theorem slot_eq_of_layer {b' : BufferId} (hp' : sc.Place b' slot' pool' cb' i') (hlayer : b.layerId = b'.layerId) :
    slot = slot' := by
  obtain ⟨layer, hmem, hid, hb⟩ := h.layer_of_place hp
  obtain ⟨layer', hmem', hid', hb'⟩ := h.layer_of_place hp'
  rw [mem_idsOfSize] at hb hb'
  obtain rfl := config.layer_ext hmem hmem' (by rw [← hb.1, ← hb'.1, hlayer])
  have hlc : slot.lifeCycleId = slot'.lifeCycleId := Option.some.inj (hid.symm.trans hid')
  exact inj_on_of_nodup_map sc.lifeCycleIds_nodup hp.slot_mem hp'.slot_mem hlc

theorem place_unique (hp' : sc.Place b slot' pool' cb' i') : slot = slot' ∧ pool = pool' ∧ cb = cb' ∧ i = i' := by
  obtain rfl := h.slot_eq_of_layer hp hp' rfl
  obtain ⟨layer, hmem, -, hb⟩ := h.layer_of_place hp
  obtain ⟨layer', hmem', -, hb'⟩ := h.layer_of_place hp'
  rw [mem_idsOfSize] at hb hb'
  obtain rfl := config.layer_ext hmem hmem' (by rw [← hb.1, ← hb'.1])
  obtain ⟨buffer, hbuffer, hrole, hsize⟩ := hb.2
  obtain ⟨buffer', hbuffer', hrole', hsize'⟩ := hb'.2
  obtain rfl := inj_on_of_nodup_map layer.roles_nodup hbuffer hbuffer' (by rw [hrole, hrole'])
  have hsizes : (slot.coalescedBuffers.map singleBufferSize)[pool]? = (slot.coalescedBuffers.map singleBufferSize)[pool']? := by
    rw [getElem?_map, getElem?_map, hp.cb_eq, hp'.cb_eq, Option.map_some, Option.map_some, ← hsize, ← hsize']
  have hlt : pool < (slot.coalescedBuffers.map singleBufferSize).length := by
    rw [length_map]
    exact (List.getElem?_eq_some_iff.1 hp.cb_eq).1
  obtain rfl : pool = pool' := (getElem?_inj hlt (h.sizes_nodup slot hp.slot_mem)).1 hsizes
  obtain rfl : cb = cb' := Option.some.inj (hp.cb_eq.symm.trans hp'.cb_eq)
  have hnodup : cb.bufferIds.Nodup := by
    rw [h.bufferIds_eq slot hp.slot_mem cb (mem_of_getElem? hp.cb_eq)]
    exact nodup_coalescedIds config registry _ _
  have hi := (List.getElem?_inj (List.getElem?_eq_some_iff.1 hp.b_eq).1 hnodup).1 (hp.b_eq.trans hp'.b_eq.symm)
  exact ⟨rfl, rfl, rfl, hi⟩

theorem exists_run :
    ∃ o u, o + u ≤ cb.numBuffers ∧ u = cb.bufferIds.countP (·.layerId = b.layerId) ∧
      ∀ j b', cb.bufferIds[j]? = some b' → (b'.layerId = b.layerId ↔ o ≤ j ∧ j < o + u) := by
  obtain ⟨layer, hmem, hid, hb⟩ := h.layer_of_place hp
  rw [mem_idsOfSize] at hb
  obtain ⟨before, after, hsplit, hother⟩ := coalescedIds_split cb.singleBufferSize hmem hid
  rw [← h.bufferIds_eq slot hp.slot_mem cb (mem_of_getElem? hp.cb_eq)] at hsplit
  have hmine : ∀ x ∈ layer.idsOfSize config.tokensPerBlock cb.singleBufferSize, x.layerId = b.layerId := by
    intro x hx
    rw [hb.1, (mem_idsOfSize.1 hx).1]
  rw [← hb.1] at hother
  set mine := layer.idsOfSize config.tokensPerBlock cb.singleBufferSize
  refine ⟨before.length, mine.length, ?_, ?_, ?_⟩
  · rw [numBuffers, hsplit, length_append, length_append]
    omega
  · have hnone : ∀ l : List BufferId, (∀ x ∈ l, x ∈ before ++ after) →
      l.countP (fun x => decide (x.layerId = b.layerId)) = 0 := by
      intro l hl
      rw [countP_eq_zero]
      intro x hx
      simpa using hother x (hl x hx)
    rw [hsplit, countP_append, countP_append, hnone before fun x => mem_append_left _,
      hnone after fun x => mem_append_right _, zero_add, add_zero, eq_comm, countP_eq_length]
    intro x hx
    simpa using hmine x hx
  · intro j b' hj
    rw [hsplit, append_assoc] at hj
    constructor
    · intro hlayer
      have hnot : b' ∉ before ++ after := fun hmem => hother b' hmem hlayer
      rw [mem_append, not_or] at hnot
      rw [getElem?_append] at hj
      split at hj
      · exact absurd (mem_of_getElem? hj) hnot.1
      rw [getElem?_append] at hj
      split at hj
      · omega
      · exact absurd (mem_of_getElem? hj) hnot.2
    · intro hrange
      rw [getElem?_append_right hrange.1, getElem?_append_left (by omega)] at hj
      exact hmine b' (mem_of_getElem? hj)

end StorageConfig.Describes

def StorageConfig.attrAt (sc : StorageConfig) (b : BufferId) (slot : SlotDescVariant) (pool : Nat)
    (cb : CoalescedBuffer) (i : Nat) : BufferAttr :=
  ⟨slot.lifeCycleId, pool, i * cb.singleBufferSize, cb.singleBufferSize, (sc.expansion.get? b).getD 1⟩

variable {attr : BufferAttr} {i : Nat} {layerId : LayerId}

theorem StorageConfig.mem_bufferAttrWrites :
    (b, attr) ∈ sc.bufferAttrWrites ↔ ∃ slot pool cb i, sc.Place b slot pool cb i ∧ attr = sc.attrAt b slot pool cb i := by
  simp only [bufferAttrWrites, mem_flatMap, mem_map, Prod.exists, mk_mem_zipIdx_iff_getElem?, Prod.mk.injEq]
  constructor
  · intro ⟨slot, hslot, cb, pool, hcb, b', i, hb, heq, hattr⟩
    subst heq
    exact ⟨slot, pool, cb, i, ⟨hslot, hcb, hb⟩, hattr.symm⟩
  · intro ⟨slot, pool, cb, i, ⟨hslot, hcb, hb⟩, hattr⟩
    exact ⟨slot, hslot, cb, pool, hcb, b, i, hb, rfl, hattr.symm⟩

theorem StorageConfig.exists_place (hget : sc.bufferAttributes.get? b = some attr) :
    ∃ slot pool cb i, sc.Place b slot pool cb i ∧ attr = sc.attrAt b slot pool cb i :=
  mem_bufferAttrWrites.1 (mem_of_get?_ofList hget)

theorem StorageConfig.Describes.get?_bufferAttributes (h : sc.Describes config registry)
    (hp : sc.Place b slot pool cb i) : sc.bufferAttributes.get? b = some (sc.attrAt b slot pool cb i) := by
  obtain ⟨attr, hattr⟩ := exists_get?_ofList (mem_bufferAttrWrites.2 ⟨slot, pool, cb, i, hp, rfl⟩)
  obtain ⟨slot', pool', cb', i', hp', rfl⟩ := exists_place hattr
  obtain ⟨rfl, rfl, rfl, rfl⟩ := h.place_unique hp hp'
  exact hattr

theorem LayerConfig.Accepted.tokensPerBlock_pos {tokensPerBlock : Nat} {layer : LayerConfig}
    (h : layer.Accepted registry tokensPerBlock) {buffer : BufferConfig} (hbuffer : buffer ∈ layer.buffers)
    (hover : buffer.tokensPerBlockOverride.isSome) : 0 < tokensPerBlock := by
  obtain ⟨lifeCycle, hmake⟩ := h.lifeCycle
  cases layer with
  | ssm layer =>
    rw [layer.no_override buffer hbuffer] at hover
    cases hover
  | attention layer =>
    rw [makeLifeCycle, AttnLifeCycle.make] at hmake
    split at hmake
    · rename_i hcond
      exact hcond.1
    · cases hmake

theorem StorageConfig.Describes.expansion_dvd (h : sc.Describes config registry) (hp : sc.Place b slot pool cb i) :
    0 < (sc.attrAt b slot pool cb i).expansion ∧ (sc.attrAt b slot pool cb i).expansion ∣ (sc.attrAt b slot pool cb i).size := by
  obtain ⟨layer, hmem, -, hb⟩ := h.layer_of_place hp
  obtain ⟨hlayer, buffer, hbuffer, hrole, hsize⟩ := mem_idsOfSize.1 hb
  have hexp := h.expansion_eq layer hmem buffer hbuffer
  rw [← hlayer, hrole] at hexp
  simp only [attrAt, hexp]
  refine ⟨?_, hsize ▸ Dvd.intro_left _ rfl⟩
  have hne := (h.accepted layer hmem).override_ne_zero buffer hbuffer
  rw [BufferConfig.expansion]
  cases hover : buffer.tokensPerBlockOverride with
  | none =>
    rw [hover] at hne
    exact Nat.div_pos le_rfl (pos_of_ne_zero hne)
  | some n =>
    have hdvd := (config.override_dvd layer hmem buffer hbuffer n hover).2
    have hpos := (h.accepted layer hmem).tokensPerBlock_pos hbuffer (by rw [hover]; rfl)
    exact Nat.div_pos (Nat.le_of_dvd hpos hdvd) (pos_of_ne_zero (by rwa [hover] at hne))

theorem StorageConfig.get?_countByLayer {n : Nat} :
    (countByLayer cb).get? layerId = some n ↔ n = cb.bufferIds.countP (·.layerId = layerId) ∧ 0 < n := by
  have hfold : ∀ (ids : List BufferId) (d : Dict LayerId Nat),
      ((ids.foldl (fun counts b => counts.upsert b.layerId fun n => n.getD 0 + 1) d).get? layerId) =
        if ids.countP (·.layerId = layerId) = 0 then d.get? layerId
        else some ((d.get? layerId).getD 0 + ids.countP (·.layerId = layerId)) := by
    intro ids
    induction ids with
    | nil => simp
    | cons b rest ih =>
      intro d
      rw [foldl_cons, ih, get?_upsert, countP_cons]
      by_cases hb : b.layerId = layerId
      · subst hb
        simp only [if_true, decide_true, Option.getD_some]
        split
        · rename_i hzero
          rw [if_neg (by omega), hzero]
        · congr 1
          omega
      · simp only [hb, Ne.symm hb, decide_false, Bool.false_eq_true, if_false, add_zero]
  rw [countByLayer, hfold, get?_empty]
  split
  · simp only [reduceCtorEq, false_iff]
    omega
  · simp only [Option.getD_none, zero_add, Option.some.injEq]
    exact ⟨fun h => ⟨h.symm, by omega⟩, fun h => h.1.symm⟩

namespace StorageConfig

structure LayerUse.At (use : LayerUse) (sc : StorageConfig) (slot : SlotDescVariant) (cb : CoalescedBuffer) : Prop where
  slot_mem : slot ∈ sc.variants
  cb_eq : slot.coalescedBuffers[use.pool]? = some cb
  lifeCycleId_eq : use.lifeCycleId = slot.lifeCycleId
  numPools_eq : use.numPools = slot.coalescedBuffers.length
  count_eq : use.count = cb.bufferIds.countP (·.layerId = use.layerId)
  count_pos : 0 < use.count
  buffersPerSlot_eq : use.buffersPerSlot = cb.numBuffers

variable {use : LayerUse}

theorem mem_layerUses : use ∈ sc.layerUses ↔ ∃ slot cb, use.At sc slot cb := by
  simp only [layerUses, mem_flatMap, mem_map, Prod.exists, mk_mem_zipIdx_iff_getElem?, mem_entries_iff, get?_countByLayer]
  constructor
  · intro ⟨slot, hslot, cb, pool, hcb, layerId, count, ⟨hcount, hpos⟩, heq⟩
    subst heq
    exact ⟨slot, cb, hslot, hcb, rfl, rfl, hcount, hpos, rfl⟩
  · intro ⟨slot, cb, h⟩
    refine ⟨slot, h.slot_mem, cb, use.pool, h.cb_eq, use.layerId, use.count, ⟨h.count_eq, h.count_pos⟩, ?_⟩
    rw [← h.lifeCycleId_eq, ← h.numPools_eq, ← h.buffersPerSlot_eq]

variable (h : sc.Describes config registry)

include h

theorem Describes.layerUses_agree {use' : LayerUse} (hmem : use ∈ sc.layerUses) (hmem' : use' ∈ sc.layerUses)
    (hlayer : use.layerId = use'.layerId) : use.lifeCycleId = use'.lifeCycleId ∧ use.numPools = use'.numPools ∧
      (use.pool = use'.pool → use.count = use'.count) := by
  obtain ⟨slot, cb, hat⟩ := mem_layerUses.1 hmem
  obtain ⟨slot', cb', hat'⟩ := mem_layerUses.1 hmem'
  have hplace : ∀ {u : LayerUse} {slot cb}, u.At sc slot cb → ∃ b i, sc.Place b slot u.pool cb i ∧ b.layerId = u.layerId := by
    intro u slot cb hu
    obtain ⟨b, hb, hlayer⟩ := countP_pos_iff.1 (hu.count_eq ▸ hu.count_pos)
    obtain ⟨i, hi⟩ := getElem?_of_mem hb
    exact ⟨b, i, ⟨hu.slot_mem, hu.cb_eq, hi⟩, by simpa using hlayer⟩
  obtain ⟨b, i, hp, hb⟩ := hplace hat
  obtain ⟨b', i', hp', hb'⟩ := hplace hat'
  obtain rfl := h.slot_eq_of_layer hp hp' (by rw [hb, hb', hlayer])
  refine ⟨hat.lifeCycleId_eq.trans hat'.lifeCycleId_eq.symm, hat.numPools_eq.trans hat'.numPools_eq.symm, fun hpool => ?_⟩
  have hcb := hat.cb_eq
  rw [hpool, hat'.cb_eq] at hcb
  cases hcb
  rw [hat.count_eq, hat'.count_eq, hlayer]

structure LayerUse.Recorded (use : LayerUse) (attr : LayerAttr) : Prop where
  lifeCycleId : attr.lifeCycleId = use.lifeCycleId
  slotUtil : attr.slotUtil[use.pool]? = some use.count
  frac : (use.count : Rat) / use.buffersPerSlot ≤ attr.slotUtilFracMax

theorem Describes.exists_layerAttributes : ∃ attrs, sc.layerAttributes = some attrs ∧
    ∀ use ∈ sc.layerUses, ∃ attr, attrs.get? use.layerId = some attr ∧ use.Recorded attr := by
  -- Along the loop, all uses met so far are recorded, and the attributes of a layer fit all its uses.
  have hfold : ∀ (rest done : List LayerUse) (d : Dict LayerId LayerAttr), done ++ rest = sc.layerUses →
      (∀ use ∈ done, ∃ attr, d.get? use.layerId = some attr ∧ use.Recorded attr) →
      (∀ use ∈ sc.layerUses, ∀ attr, d.get? use.layerId = some attr →
        attr.lifeCycleId = use.lifeCycleId ∧ attr.slotUtil.length = use.numPools) →
      ∃ attrs, rest.foldlM addLayerUse d = some attrs ∧
        ∀ use ∈ sc.layerUses, ∃ attr, attrs.get? use.layerId = some attr ∧ use.Recorded attr := by
    intro rest
    induction rest with
    | nil =>
      intro done d hall hdone _
      rw [append_nil] at hall
      exact ⟨d, rfl, hall ▸ hdone⟩
    | cons next rest ih =>
      intro done d hall hdone hfits
      have hnext : next ∈ sc.layerUses := by
        rw [← hall]
        exact mem_append_right _ (.head _)
      rw [foldlM_cons, addLayerUse]
      set attr := (d.get? next.layerId).getD ⟨next.lifeCycleId, replicate next.numPools 0, 0⟩ with hattr
      have hfit : attr.lifeCycleId = next.lifeCycleId ∧ attr.slotUtil.length = next.numPools := by
        cases hget : d.get? next.layerId with
        | none => simp [hattr, hget]
        | some old =>
          rw [hattr, hget]
          exact hfits next hnext old hget
      rw [if_neg (not_not.2 hfit.1)]
      obtain ⟨slot, cb, hat⟩ := mem_layerUses.1 hnext
      have hpool : next.pool < attr.slotUtil.length := by
        rw [hfit.2, hat.numPools_eq]
        exact (List.getElem?_eq_some_iff.1 hat.cb_eq).1
      refine ih (done ++ [next]) _ (by rw [← hall, append_assoc]; rfl) ?_ ?_
      · intro use huse
        rw [get?_insert]
        rcases mem_append.1 huse with hold | hnew
        · obtain ⟨attr', hget, hrec⟩ := hdone use hold
          by_cases hl : use.layerId = next.layerId
          · rw [if_pos hl]
            rw [hl] at hget
            have hsame : attr = attr' := by rw [hattr, hget]; rfl
            rw [hsame]
            have hmem : use ∈ sc.layerUses := by
              rw [← hall]
              exact mem_append_left _ hold
            refine ⟨_, rfl, hrec.lifeCycleId, ?_, hrec.frac.trans (le_max_left _ _)⟩
            rw [getElem?_set]
            split
            · rename_i heq
              rw [if_pos (hsame ▸ hpool), (h.layerUses_agree hnext hmem hl.symm).2.2 heq]
            · exact hrec.slotUtil
          · rw [if_neg hl]
            exact ⟨attr', hget, hrec⟩
        · rw [mem_singleton.1 hnew, if_pos rfl]
          refine ⟨_, rfl, hfit.1, ?_, le_max_right _ _⟩
          rw [getElem?_set_self hpool]
      · intro use huse attr' hget
        rw [get?_insert] at hget
        split at hget
        · rename_i hl
          cases hget
          obtain ⟨hlc, hpools, _⟩ := h.layerUses_agree hnext huse hl.symm
          exact ⟨hfit.1.trans hlc, by rw [length_set, hfit.2, hpools]⟩
        · exact hfits use huse attr' hget
  exact hfold sc.layerUses [] ∅ rfl nofun nofun

end StorageConfig

theorem StorageTables.le_slotUtilFracMax {attr : LayerAttr} (hget : tables.layerAttributes.get? layerId = some attr) :
    attr.slotUtilFracMax ≤ tables.slotUtilFracMax attr.lifeCycleId := by
  have hmem : attr ∈ tables.layerAttributes.values := mem_map.2 ⟨(layerId, attr), mem_entries_iff.2 hget, rfl⟩
  have hfold : ∀ (attrs : List LayerAttr) (frac : Rat), attr ∈ attrs ∨ attr.slotUtilFracMax ≤ frac →
      attr.slotUtilFracMax ≤ attrs.foldl (fun frac a =>
        if a.lifeCycleId = attr.lifeCycleId ∧ frac < a.slotUtilFracMax then a.slotUtilFracMax else frac) frac := by
    intro attrs
    induction attrs with
    | nil => exact fun frac h => h.resolve_left not_mem_nil
    | cons a rest ih =>
      intro frac h
      rw [foldl_cons]
      apply ih
      rw [mem_cons] at h
      rcases h with (rfl | hrest) | hle
      · right
        split
        · exact le_rfl
        · rename_i hnot
          exact not_lt.1 fun hlt => hnot ⟨rfl, hlt⟩
      · exact .inl hrest
      · right
        split
        · rename_i hlt
          exact hle.trans hlt.2.le
        · exact hle
  exact hfold _ 0 (.inl hmem)

end TrtLlm.KvCache
