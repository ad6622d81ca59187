import Mathlib
import TrtLlm.Disaggregation.Peer

/-!
# Region mappers

Which bytes of a slot a sender copies where.
-/

namespace TrtLlm.Disaggregation

/-- A view of a pool: its layers in physical order, where their regions start in a slot, and how long they are. -/
structure PoolView where
  mapperKind : MapperKind
  globalLayerIds : List ℕ
  layerStart : ℕ → ℕ
  bytesPerLayer : ℕ
  buffersPerLayer : ℕ

structure Fragment where
  src : ℕ
  dst : ℕ
  bytes : ℕ

/-- The loop of `_merge_contiguous` within a run of layers that started at `run` and has reached `last`. -/
def mergeContiguous (bytesPerLayer : ℕ) (run : ℕ × ℕ) (layers : ℕ) (last : ℕ × ℕ) : List (ℕ × ℕ) → List Fragment
  | [] => [⟨run.1, run.2, layers * bytesPerLayer⟩]
  | next :: rest =>
    if next.1 ≠ last.1 + bytesPerLayer ∨ next.2 ≠ last.2 + bytesPerLayer then
      ⟨run.1, run.2, layers * bytesPerLayer⟩ :: mergeContiguous bytesPerLayer next 1 next rest
    else mergeContiguous bytesPerLayer run (layers + 1) next rest

def intactMapper (offsets : List (ℕ × ℕ)) (selfBytes peerBytes : ℕ) : Except String (List Fragment) :=
  if selfBytes ≠ peerBytes then .error "cache region size mismatch"
  else match offsets with
    | [] => .error "layer offsets must be non-empty and equal-length"
    | first :: rest => .ok (mergeContiguous selfBytes first 1 first rest)

def computeHeadOffsets (self peer : RankInfo) (bytesPerHead : ℕ) : ℕ × ℕ :=
  let selfTp := tpSizePerDpGroup self
  let peerTp := tpSizePerDpGroup peer
  if selfTp = peerTp then (0, 0)
  else if selfTp < peerTp then
    (shardIndex selfTp peerTp self.attention.kvHeadsPerRank peer.tpRank * bytesPerHead, 0)
  else (0, shardIndex peerTp selfTp peer.attention.kvHeadsPerRank self.tpRank * bytesPerHead)

def hndHeadMismatchMapper (self peer : RankInfo) (offsets : List (ℕ × ℕ))
    (selfBytes peerBytes selfBuffers peerBuffers : ℕ) :
    Except String (List Fragment) :=
  let selfHeads := self.attention.kvHeadsPerRank
  let peerHeads := peer.attention.kvHeadsPerRank
  let srcBuffer := selfBytes / selfBuffers
  let dstBuffer := peerBytes / peerBuffers
  let bytesPerHead := srcBuffer / selfHeads
  let off := computeHeadOffsets self peer bytesPerHead
  if selfBuffers ≠ peerBuffers then .error "HND buffer count per layer mismatch"
  else if offsets = [] then .error "HND layer offsets must be non-empty and equal-length"
  else if selfBuffers = 0 ∨ selfBytes % selfBuffers ≠ 0 ∨ peerBytes % peerBuffers ≠ 0 then
    .error "HND layer geometry is not evenly divisible"
  else if selfHeads = 0 ∨ srcBuffer % selfHeads ≠ 0 ∨ peerHeads = 0 ∨ dstBuffer % peerHeads ≠ 0 then
    .error "HND head slicing is not byte-aligned"
  else if bytesPerHead ≠ dstBuffer / peerHeads then .error "HND bytes per head mismatch"
  else .ok (offsets.flatMap fun o => (List.range selfBuffers).map fun b =>
    ⟨o.1 + srcBuffer * b + off.1, o.2 + dstBuffer * b + off.2, min selfHeads peerHeads * bytesPerHead⟩)

def nhdHeadMismatchMapper (self peer : RankInfo) (offsets : List (ℕ × ℕ))
    (selfBytes peerBytes selfBuffers peerBuffers : ℕ) :
    Except String (List Fragment) :=
  let tokens := self.attention.tokensPerBlock
  let selfHeads := self.attention.kvHeadsPerRank
  let peerHeads := peer.attention.kvHeadsPerRank
  let selfCount := selfBuffers * tokens * selfHeads
  let peerCount := peerBuffers * tokens * peerHeads
  let bytesPerTokenHead := selfBytes / selfCount
  let off := computeHeadOffsets self peer bytesPerTokenHead
  if tokens ≠ peer.attention.tokensPerBlock then .error "NHDHeadMismatchMapper requires equal tokens_per_block"
  else if selfBuffers ≠ peerBuffers then .error "NHD buffer count per layer mismatch"
  else if offsets = [] then .error "NHD layer offsets must be non-empty and equal-length"
  else if selfCount = 0 ∨ selfBytes % selfCount ≠ 0 ∨ peerCount = 0 ∨ peerBytes % peerCount ≠ 0 then
    .error "NHD region geometry is not evenly divisible"
  else if bytesPerTokenHead ≠ peerBytes / peerCount then .error "NHD bytes per token/head mismatch"
  else .ok (offsets.flatMap fun o => (List.range selfBuffers).flatMap fun b => (List.range tokens).map fun token =>
    ⟨o.1 + tokens * (selfHeads * bytesPerTokenHead) * b + selfHeads * bytesPerTokenHead * token + off.1,
      o.2 + tokens * (peerHeads * bytesPerTokenHead) * b + peerHeads * bytesPerTokenHead * token + off.2,
      min selfHeads peerHeads * bytesPerTokenHead⟩)

/-- The mapper of `get_kv_map` and `build_kv_mapper` for a pair of views; views without a common layer are no pair. -/
def getKvMap (self peer : RankInfo) (selfView peerView : PoolView) : Except String (List Fragment) :=
  let layers := selfView.globalLayerIds.filter fun layer => decide (layer ∈ peerView.globalLayerIds)
  let offsets := layers.map fun layer => (selfView.layerStart layer, peerView.layerStart layer)
  if layers = [] then .ok []
  else if selfView.mapperKind ≠ peerView.mapperKind then .error "incompatible mapper kinds"
  else if selfView.mapperKind = .replicated ∨ headMatch self peer then
    intactMapper offsets selfView.bytesPerLayer peerView.bytesPerLayer
  else
    (if selfView.mapperKind = .nhd then nhdHeadMismatchMapper else hndHeadMismatchMapper) self peer offsets
      selfView.bytesPerLayer peerView.bytesPerLayer selfView.buffersPerLayer peerView.buffersPerLayer

def Copies (fragments : List Fragment) (x y : ℕ) : Prop :=
  ∃ f ∈ fragments, ∃ i < 8 * f.bytes, x = 8 * f.src + i ∧ y = 8 * f.dst + i

/-- How a buffer stores a number of bits for each token and head. -/
structure Layout where
  kind : MapperKind
  tokens : ℕ
  bits : ℕ

def Layout.cell (l : Layout) (heads buffer head token : ℕ) : ℕ :=
  match l.kind with
  | .nhd => (buffer * l.tokens + token) * heads + head
  | _ => (buffer * heads + head) * l.tokens + token

def Layout.bit (l : Layout) (heads start buffer head token x : ℕ) : ℕ := 8 * start + (l.cell heads buffer head token * l.bits + x)

end TrtLlm.Disaggregation
