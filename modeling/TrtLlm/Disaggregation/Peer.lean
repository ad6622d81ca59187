import Mathlib
import TrtLlm.Lib.Shards

/-!
# Peers of a disaggregated transfer

Which context ranks write to a generation rank: the ranks that `get_peer_overlap` lists, of which `should_send_pool`
elects one wherever several store the same heads. An instance is described by the `RankInfo` of any of its ranks.
-/

namespace TrtLlm.Disaggregation

inductive MapperKind where
  | indexed
  | replicated
  | nhd
deriving DecidableEq

structure AttentionInfo where
  kvHeadsPerRank : ℕ
  tokensPerBlock : ℕ
  dimsPerHead : ℕ
  /-- `element_bytes` in eighths. -/
  elementBits : ℕ
  enableAttentionDp : Bool
  isMla : Bool

structure RankInfo where
  tpSize : ℕ
  tpRank : ℕ
  ppSize : ℕ
  ppRank : ℕ
  dpSize : ℕ
  dpRank : ℕ
  cpSize : ℕ
  cpRank : ℕ
  layerNumPerPp : List ℕ
  attention : AttentionInfo
  /-- The kinds of the views in its page table. -/
  mapperKinds : List MapperKind

structure PeerOverlap where
  overlapPpSize : ℕ
  overlapTpSize : ℕ
  overlapCpSize : ℕ
  duplicateHeadFactor : ℕ
  peerDuplicateHeadFactor : ℕ
  ranks : List ℕ

variable (ri : RankInfo)

def tpSizePerDpGroup : ℕ :=
  if ri.attention.enableAttentionDp then ri.tpSize / ri.dpSize else ri.tpSize

def headMatch (self peer : RankInfo) : Bool :=
  self.attention.isMla || decide (self.attention.kvHeadsPerRank = peer.attention.kvHeadsPerRank)

def usesExactTpbMapper : Bool := ri.mapperKinds.any fun kind => decide (kind ≠ .indexed)

def tpbCheck (self peer : RankInfo) : Bool :=
  let a := self.attention.tokensPerBlock
  let b := peer.attention.tokensPerBlock
  decide (a = b) || !(usesExactTpbMapper self || usesExactTpbMapper peer) && decide (max a b % min a b = 0)

def checkPeerCompatible (self peer : RankInfo) : Bool :=
  let a := self.attention
  let b := peer.attention
  decide (a.isMla = b.isMla) && decide (self.cpSize = 1 ∧ peer.cpSize = 1) && decide (a.elementBits = b.elementBits) &&
    (headMatch self peer || decide (a.tokensPerBlock * a.dimsPerHead * a.elementBits % 8 = 0)) && tpbCheck self peer &&
    decide (a.dimsPerHead = b.dimsPerHead) && !(a.isMla && decide (a.kvHeadsPerRank ≠ 1 ∨ b.kvHeadsPerRank ≠ 1))

def headFactor : ℕ := ri.attention.kvHeadsPerRank * tpSizePerDpGroup ri

def duplicateHeadFactors (self peer : RankInfo) : ℕ × ℕ :=
  if self.attention.kvHeadsPerRank = 0 ∨ peer.attention.kvHeadsPerRank = 0 then (1, 1)
  else (max 1 (headFactor self / headFactor peer), max 1 (headFactor peer / headFactor self))

def findOverlap (selfVal peerVal selfRank : ℕ) (peerRank : Option ℕ) : ℕ × ℕ :=
  let base := (peerRank.getD 0) * peerVal
  if selfVal ≤ peerVal then (peerVal / selfVal, selfRank * (peerVal / selfVal) + base)
  else (1, selfRank / (selfVal / peerVal) + base)

def startLayer (pp : ℕ) : ℕ := (ri.layerNumPerPp.take pp).sum

def endLayer (pp : ℕ) : ℕ := startLayer ri pp + ri.layerNumPerPp.getD pp 0

def targetPpRanks (self peer : RankInfo) : List ℕ :=
  (List.range peer.ppSize).filter fun p =>
    decide (startLayer self self.ppRank < endLayer peer p ∧ endLayer self self.ppRank > startLayer peer p)

def getPeerOverlap (self peer : RankInfo) (peerDpRank : ℕ) : PeerOverlap :=
  match targetPpRanks self peer with
  | [] => ⟨0, 0, 0, 1, 1, []⟩
  | startPp :: others =>
    let overlapPp := others.length + 1
    let selfTp := tpSizePerDpGroup self
    let (overlapTp, startTp) := findOverlap selfTp (tpSizePerDpGroup peer) (self.tpRank % selfTp) (some peerDpRank)
    let (overlapCp, startCp) := findOverlap self.cpSize peer.cpSize self.cpRank none
    let (dupHead, peerDupHead) := duplicateHeadFactors self peer
    let ranks := (List.range' startPp overlapPp).flatMap fun pp => (List.range' startCp overlapCp).flatMap fun cp =>
      (List.range' startTp overlapTp).map fun tp => pp * peer.tpSize * peer.cpSize + cp * peer.tpSize + tp
    ⟨overlapPp, overlapTp, overlapCp, dupHead, peerDupHead, ranks⟩

def shouldSendKv (self : RankInfo) (peerOverlap : PeerOverlap) (peer : RankInfo) : Bool :=
  let dup := peerOverlap.duplicateHeadFactor
  decide (dup ≤ 1 ∨ peer.dpRank % dup = self.tpRank % tpSizePerDpGroup self % dup)

def ownsTpFanIn (self peer : RankInfo) : Bool :=
  let ratio := max 1 (tpSizePerDpGroup self / tpSizePerDpGroup peer)
  decide (self.tpRank % tpSizePerDpGroup self % ratio = peer.dpRank % ratio)

def shouldSendPool (self : RankInfo) (peerOverlap : PeerOverlap) (peer : RankInfo) (kind : MapperKind) : Bool :=
  if kind = .replicated then ownsTpFanIn self peer else shouldSendKv self peerOverlap peer

def RankInfo.at (rank : ℕ) : RankInfo := { ri with
    tpRank := rank % ri.tpSize
    ppRank := rank / ri.tpSize
    cpRank := 0
    dpRank := rank % ri.tpSize / tpSizePerDpGroup ri }

structure Instance (H layers : ℕ) (ri : RankInfo) : Prop where
  tpSize_pos : 0 < ri.tpSize
  groups : tpSizePerDpGroup ri ∣ ri.tpSize
  length_layers : ri.layerNumPerPp.length = ri.ppSize
  sum_layers : ri.layerNumPerPp.sum = layers
  heads : Sharded H (tpSizePerDpGroup ri) ri.attention.kvHeadsPerRank
  mla : ri.attention.isMla = true → H = 1

end TrtLlm.Disaggregation
