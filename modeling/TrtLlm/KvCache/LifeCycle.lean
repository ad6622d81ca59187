import TrtLlm.Lib.Dict
import TrtLlm.KvCache.Bitset

/-!
# Configuration and life cycles

`_config.py` and `_life_cycle_registry.py`. Layers whose blocks go stale by the same rule share a life cycle:
attention with a window size and sink blocks, or SSM.
-/

namespace TrtLlm.KvCache

/-- `HalfOpenRange`: the ordinals from `beg` up to and without `stop`; empty unless `beg < stop`. -/
structure HalfOpenRange where
  beg : Nat
  stop : Nat
deriving DecidableEq, Repr

namespace HalfOpenRange

def nonempty (r : HalfOpenRange) : Bool := r.beg < r.stop

def length (r : HalfOpenRange) : Nat := r.stop - r.beg

def contains (r : HalfOpenRange) (ordinal : Nat) : Bool := r.beg ≤ ordinal && ordinal < r.stop

instance : Membership Nat HalfOpenRange := ⟨fun r ordinal => r.contains ordinal = true⟩

instance (r : HalfOpenRange) (ordinal : Nat) : Decidable (ordinal ∈ r) := inferInstanceAs (Decidable (r.contains ordinal = true))

@[simp] theorem mem_iff {r : HalfOpenRange} {ordinal : Nat} : ordinal ∈ r ↔ r.beg ≤ ordinal ∧ ordinal < r.stop := by
  show r.contains ordinal = true ↔ _
  simp [contains]

def intersect (a b : HalfOpenRange) : HalfOpenRange := ⟨max a.beg b.beg, min a.stop b.stop⟩

theorem mem_intersect {a b : HalfOpenRange} {ordinal : Nat} : ordinal ∈ a.intersect b ↔ ordinal ∈ a ∧ ordinal ∈ b := by
  simp only [mem_iff, intersect]
  omega

end HalfOpenRange

abbrev LayerId := Nat

abbrev DataRole := String

structure BufferConfig where
  role : DataRole
  size : Nat
  tokensPerBlockOverride : Option Nat := none
deriving DecidableEq, Repr

structure AttentionLayerConfig where
  layerId : LayerId
  buffers : List BufferConfig
  slidingWindowSize : Option Nat := none
  numSinkTokens : Option Nat := none
  roles_nodup : (buffers.map BufferConfig.role).Nodup := by decide

structure SsmLayerConfig where
  layerId : LayerId
  buffers : List BufferConfig
  roles_nodup : (buffers.map BufferConfig.role).Nodup := by decide
  no_override : ∀ buffer ∈ buffers, buffer.tokensPerBlockOverride = none := by decide

inductive LayerConfig where
  | attention (layer : AttentionLayerConfig)
  | ssm (layer : SsmLayerConfig)

namespace LayerConfig

def layerId : LayerConfig → LayerId
  | attention layer => layer.layerId
  | ssm layer => layer.layerId

def buffers : LayerConfig → List BufferConfig
  | attention layer => layer.buffers
  | ssm layer => layer.buffers

theorem roles_nodup : (layer : LayerConfig) → (layer.buffers.map BufferConfig.role).Nodup
  | attention layer => layer.roles_nodup
  | ssm layer => layer.roles_nodup

def isSsm : LayerConfig → Bool
  | attention _ => false
  | ssm _ => true

end LayerConfig

/-- The part of `KVCacheManagerConfig` that the modelled code reads, with its `__post_init__` checks. -/
structure KVCacheManagerConfig where
  tokensPerBlock : Nat
  layers : List LayerConfig
  enablePartialReuse : Bool := true
  /-- `max_rewind_len` of `swa_scratch_reuse`, when that is set. -/
  swaScratchReuse : Option Nat := none
  commitMinSnapshot : Bool := false
  layerIds_nodup : (layers.map LayerConfig.layerId).Nodup := by decide
  override_dvd : ∀ layer ∈ layers, ∀ buffer ∈ layer.buffers, ∀ n ∈ buffer.tokensPerBlockOverride,
    0 < n ∧ n ∣ tokensPerBlock := by decide
  ssm_snapshot : (∃ layer ∈ layers, layer.isSsm = true) → commitMinSnapshot = true := by decide

structure AttnLifeCycle where
  windowSize : Option Nat
  numSinkBlocks : Nat
deriving DecidableEq, Repr

namespace AttnLifeCycle

def make (windowSize numSinkTokens : Option Nat) (tokensPerBlock : Nat) : Option AttnLifeCycle :=
  if 0 < tokensPerBlock ∧ (∀ w ∈ windowSize, 0 < w) ∧ (numSinkTokens.getD 0 = 0 ∨ windowSize.isSome) then
    some ⟨windowSize, divUp (numSinkTokens.getD 0) tokensPerBlock⟩
  else none

/-- The blocks out of the window once `historyLength` tokens are history; the window of the next token is
`[historyLength + 1 - windowSize, historyLength]`. -/
def getStaleRange (lc : AttnLifeCycle) (historyLength tokensPerBlock : Nat) : HalfOpenRange :=
  let start := min (divUp historyLength tokensPerBlock) lc.numSinkBlocks
  match lc.windowSize with
  | none => ⟨start, start⟩
  | some windowSize => ⟨start, max start ((historyLength + 1 - windowSize) / tokensPerBlock)⟩

variable {lc : AttnLifeCycle} {n tpb j : Nat}

theorem mem_getStaleRange : j ∈ lc.getStaleRange n tpb ↔
    (divUp n tpb ≤ j ∨ lc.numSinkBlocks ≤ j) ∧ ∃ w, lc.windowSize = some w ∧ j < (n + 1 - w) / tpb := by
  rw [getStaleRange]
  cases lc.windowSize with
  | none =>
    simp
    omega
  | some w =>
    simp
    omega

theorem not_mem_getStaleRange_of_le {m : Nat} (hpos : 0 < tpb) (hj : j * tpb < m) (hmn : m ≤ n)
    (h : j ∉ lc.getStaleRange n tpb) : j ∉ lc.getStaleRange m tpb := by
  have hm := (lt_divUp_iff hpos).2 hj
  rw [mem_getStaleRange] at h ⊢
  rintro ⟨hbeg, w, hw, hlt⟩
  exact h ⟨.inr (hbeg.resolve_left hm.not_ge), w, hw, hlt.trans_le (Nat.div_le_div_right (by omega))⟩

theorem not_mem_getStaleRange_of_pinned (hpos : 0 < tpb) (hj : j * tpb < n)
    (hpinned : lc.windowSize = none ∨ j < lc.numSinkBlocks) : j ∉ lc.getStaleRange n tpb := by
  have hn := (lt_divUp_iff hpos).2 hj
  rw [mem_getStaleRange]
  rintro ⟨hbeg, w, hw, -⟩
  have hsink : j < lc.numSinkBlocks := hpinned.resolve_left (by simp [hw])
  omega

theorem not_mem_getStaleRange_last {w : Nat} (hpos : 0 < tpb) (hle : n ≤ j * tpb + tpb)
    (hw : lc.windowSize = some w) (htwo : 2 ≤ w) : j ∉ lc.getStaleRange n tpb := by
  have hdiv : (n + 1 - w) / tpb ≤ j := by
    rw [Nat.div_le_iff_le_mul hpos]
    omega
  rw [mem_getStaleRange]
  rintro ⟨-, w', hw', hlt⟩
  cases hw.symm.trans hw'
  exact hlt.not_ge hdiv

end AttnLifeCycle

inductive LifeCycle where
  | attn (lc : AttnLifeCycle)
  | ssm
deriving DecidableEq, Repr

def LifeCycle.getStaleRange : LifeCycle → Nat → Nat → HalfOpenRange
  | .attn lc, historyLength, tokensPerBlock => lc.getStaleRange historyLength tokensPerBlock
  | .ssm, historyLength, tokensPerBlock => ⟨0, historyLength / tokensPerBlock⟩

/-- The life cycles for which a match cannot end in a block without a page: SSM, and windows that reach back from the
next token. -/
def LifeCycle.EndsNeedPage : LifeCycle → Prop
  | .ssm => True
  | .attn lc => ∃ w, lc.windowSize = some w ∧ 2 ≤ w

def makeLifeCycle (layer : LayerConfig) (tokensPerBlock : Nat) : Option LifeCycle :=
  match layer with
  | .ssm _ => some .ssm
  | .attention layer =>
    (AttnLifeCycle.make layer.slidingWindowSize layer.numSinkTokens tokensPerBlock).map .attn

abbrev LifeCycleId := Nat

/-- `LifeCycleRegistry`: the life cycles in the order of their first layer; an id is a position. -/
def lifeCycleRegistry (config : KVCacheManagerConfig) : Option (List LifeCycle) := config.layers.foldlM (fun registry layer => do
    let details ← makeLifeCycle layer config.tokensPerBlock
    pure (if details ∈ registry then registry else registry ++ [details])) []

theorem lifeCycleRegistry_spec {config : KVCacheManagerConfig} {reg : List LifeCycle}
    (hregistry : lifeCycleRegistry config = some reg) :
    reg.Nodup ∧ ∀ lc w, .attn lc ∈ reg → lc.windowSize = some w → 0 < w := by
  have hfold : ∀ (layers : List LayerConfig) (before : List LifeCycle),
      (before.Nodup ∧ ∀ lc w, .attn lc ∈ before → lc.windowSize = some w → 0 < w) →
      layers.foldlM (fun reg layer => do
        let details ← makeLifeCycle layer config.tokensPerBlock
        pure (if details ∈ reg then reg else reg ++ [details])) before = some reg →
      reg.Nodup ∧ ∀ lc w, .attn lc ∈ reg → lc.windowSize = some w → 0 < w := by
    intro layers
    induction layers with
    | nil =>
      intro before hbefore hok
      cases hok
      exact hbefore
    | cons layer layers ih =>
      intro before hbefore hok
      obtain ⟨next, hnext, hok⟩ := Option.bind_eq_some_iff.1 hok
      obtain ⟨details, hdetails, hnext⟩ := Option.bind_eq_some_iff.1 hnext
      cases hnext
      apply ih _ _ hok
      split
      · exact hbefore
      rename_i hfresh
      refine ⟨?_, fun lc w hmem hw => ?_⟩
      · exact hbefore.1.append (List.nodup_singleton details) fun x hx hx' => hfresh (List.mem_singleton.1 hx' ▸ hx)
      rcases List.mem_append.1 hmem with hmem | hmem
      · exact hbefore.2 lc w hmem hw
      -- `make` refuses an empty window
      cases List.mem_singleton.1 hmem
      cases layer with
      | ssm layer => cases hdetails
      | attention layer =>
        obtain ⟨made, hmade, heq⟩ := Option.map_eq_some_iff.1 hdetails
        cases heq
        unfold AttnLifeCycle.make at hmade
        split at hmade
        · rename_i hcond
          cases hmade
          exact hcond.2.1 w hw
        · cases hmade
  exact hfold config.layers [] ⟨List.nodup_nil, nofun⟩ hregistry

def getLifeCycleId (registry : List LifeCycle) (details : LifeCycle) : Option LifeCycleId :=
  if details ∈ registry then some (registry.idxOf details) else none

/-- `compute_scratch_range`: the blocks of the current chunk that will be out of the window once all tokens that cannot
be rewound are history. -/
def computeScratchRange (lc : LifeCycle) (historyLength capacity tokensPerBlock maxRewindLen : Nat) : HalfOpenRange :=
  match lc with
  | .ssm => ⟨0, 0⟩
  | .attn lc =>
    match lc.windowSize with
    | none => ⟨0, 0⟩
    | some _ =>
      (lc.getStaleRange (capacity - maxRewindLen) tokensPerBlock).intersect
        ⟨divUp historyLength tokensPerBlock, divUp capacity tokensPerBlock⟩

end TrtLlm.KvCache
