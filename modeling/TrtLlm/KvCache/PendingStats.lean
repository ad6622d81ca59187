import TrtLlm.KvCache.LifeCycle

/-!
# Pending allocation statistics

`_pending_stats.py`: allocated blocks are counted at once and remembered as segments, so that a cache that shrinks can
take its last blocks out of the counts again. The scan for these runs backwards over the segments of all life cycles and
ends at the first one that lies before them.
-/

namespace TrtLlm.KvCache

open List

inductive StatsField where
  | allocTotalBlocks | allocNewBlocks | reusedBlocks | missedBlocks

inductive IterationField where
  | allocTotalBlocks | allocNewBlocks | reusedBlocks | fullReusedBlocks | partialReusedBlocks | missedBlocks
  | genAllocBlocks | onboardBlocks | onboardBytes | offloadBlocks | offloadBytes | intraDeviceCopyBlocks
  | intraDeviceCopyBytes | hostDroppedBlocks | hostDroppedBytes
deriving DecidableEq

instance : Fintype IterationField := .ofSurjective (fun i : Fin 15 => .ofNat i) fun field =>
  ⟨⟨field.ctorIdx, by cases field <;> decide⟩, by cases field <;> rfl⟩

inductive Counter where
  | globalStats (field : StatsField)
  | requestStats (field : StatsField)
  | iterationStats (lifeCycle : ℕ) (field : IterationField)

structure PendingAllocationSegment where
  lifeCycle : ℕ
  blockBegin : ℕ
  blockEnd : ℕ
  beamWidth : ℕ
  countAsMissed : Bool
  countAsGeneration : Bool

structure PendingStats where
  /-- A life cycle without an entry has an empty one here: the source deletes those. -/
  counters : Counter → ℤ := 0
  allocationSegments : List PendingAllocationSegment := []

namespace PendingAllocationSegment

variable (segment : PendingAllocationSegment)

def counts : Counter → Bool
  | .globalStats field | .requestStats field =>
    match field with
    | .allocTotalBlocks | .allocNewBlocks => true
    | .missedBlocks => segment.countAsMissed
    | .reusedBlocks => false
  | .iterationStats lifeCycle field => lifeCycle = segment.lifeCycle &&
    match field with
    | .allocTotalBlocks | .allocNewBlocks => true
    | .missedBlocks => segment.countAsMissed
    | .genAllocBlocks => segment.countAsGeneration
    | _ => false

def allocationDelta (blockBegin blockEnd : ℕ) (c : Counter) : ℕ :=
  if segment.counts c then (blockEnd - blockBegin) * segment.beamWidth else 0

def cost : Counter → ℕ := segment.allocationDelta segment.blockBegin segment.blockEnd

/-- What its blocks from `blockBegin` on cost. -/
def removed (blockBegin : ℕ) : Counter → ℕ :=
  segment.allocationDelta (max blockBegin segment.blockBegin) segment.blockEnd

/-- The segment without these blocks. -/
def upTo (blockBegin : ℕ) : PendingAllocationSegment := { segment with blockEnd := min segment.blockEnd blockBegin }

structure Recorded (numBlocks : ℕ) : Prop where
  nonempty : segment.blockBegin < segment.blockEnd
  le : segment.blockEnd ≤ numBlocks
  beam : 0 < segment.beamWidth

variable {segment} {b e : ℕ} (h : segment.Recorded e)
include h

theorem Recorded.cost_eq (c : Counter) : segment.cost c = (segment.upTo b).cost c + segment.removed b c := by
  have hbegin := h.nonempty
  have hblocks : segment.blockEnd - segment.blockBegin = (min segment.blockEnd b - segment.blockBegin) +
      (segment.blockEnd - max b segment.blockBegin) := by
    omega
  rw [cost, cost, removed, allocationDelta, allocationDelta, allocationDelta, hblocks, Nat.add_mul]
  show ite (segment.counts c = true) _ _ = ite (segment.counts c = true) _ _ + _
  split
  · rfl
  · rfl

theorem Recorded.removed_eq_zero_iff : (∀ c, segment.removed b c = 0) ↔ segment.blockEnd ≤ b := by
  have hbegin := h.nonempty
  constructor
  · intro hzero
    have hblocks := (Nat.mul_eq_zero.1 (hzero (.globalStats .allocTotalBlocks))).resolve_right h.beam.ne'
    omega
  · intro hle c
    simp [removed, allocationDelta, Nat.sub_eq_zero_of_le (hle.trans (le_max_left ..))]

end PendingAllocationSegment

namespace PendingStats

open PendingAllocationSegment

variable (p : PendingStats)

def subtract (delta : Counter → ℕ) : PendingStats := { p with
  counters c :=
    match c with
    | .iterationStats lc _ => if ∀ field, p.counters (.iterationStats lc field) = 0 then 0 else p.counters c - delta c
    | c => p.counters c - delta c }

def recordAllocationRange (segment : PendingAllocationSegment) : PendingStats :=
  -- Nor is an empty delta recorded.
  if segment.blockEnd ≤ segment.blockBegin ∨ segment.cost (.globalStats .allocTotalBlocks) = 0 then p
  else ⟨fun c => p.counters c + segment.cost c, p.allocationSegments ++ [segment]⟩

/-- The scan, with the segments from `idx` down first; `kept` are those behind `idx`. -/
def subtractSegments (blockBegin blockEnd : ℕ) :
    List PendingAllocationSegment → PendingStats → List PendingAllocationSegment → Option PendingStats
  | [], p, kept => some { p with allocationSegments := kept }
  | segment :: before, p, kept =>
    if segment.blockEnd ≤ blockBegin then some { p with allocationSegments := before.reverse ++ segment :: kept }
    else
      let removedBegin := max blockBegin segment.blockBegin
      let removedEnd := min blockEnd segment.blockEnd
      if removedEnd ≤ removedBegin then subtractSegments blockBegin blockEnd before p (segment :: kept)
      else
        let p := p.subtract (segment.allocationDelta removedBegin removedEnd)
        if removedBegin ≤ segment.blockBegin then subtractSegments blockBegin blockEnd before p kept
        else if removedEnd = segment.blockEnd then
          subtractSegments blockBegin blockEnd before p ({ segment with blockEnd := removedBegin } :: kept)
        else none

/-- Without a result where the source's assertion fails. -/
def subtractAllocationRange (blockBegin blockEnd : ℕ) : Option PendingStats :=
  if blockEnd ≤ blockBegin then some p else subtractSegments blockBegin blockEnd p.allocationSegments.reverse p []

def blockRangesExcluding (blockBegin blockEnd : ℕ) (excluded : HalfOpenRange) : List HalfOpenRange :=
  [⟨blockBegin, min blockEnd excluded.beg⟩, ⟨max blockBegin excluded.stop, blockEnd⟩].filter (·.nonempty)

/-- `_record_resize_pending_allocations`, given the excluded ranges of the attention life cycles. -/
def resizeSegments (blockBegin blockEnd beamWidth : ℕ) (excludedRanges : List (ℕ × HalfOpenRange))
    (countAsGeneration : Bool) : List PendingAllocationSegment :=
  excludedRanges.flatMap fun (lc, excluded) => (blockRangesExcluding blockBegin blockEnd excluded).map fun range =>
    ⟨lc, range.beg, range.stop, beamWidth, !countAsGeneration, countAsGeneration⟩

def record (segments : List PendingAllocationSegment) : PendingStats := segments.foldl recordAllocationRange p

variable {p} {b e : ℕ} {c : Counter} {segments : List PendingAllocationSegment}

theorem counters_record (p : PendingStats) (segments : List PendingAllocationSegment) :
    (p.record segments).counters c = p.counters c + (segments.map (·.cost c)).sum := by
  induction segments generalizing p with
  | nil => exact (add_zero _).symm
  | cons seg segments ih =>
    have hstep : (p.recordAllocationRange seg).counters c = p.counters c + seg.cost c := by
      rw [recordAllocationRange]
      split
      · rename_i hempty
        have hzero : (seg.blockEnd - seg.blockBegin) * seg.beamWidth = 0 :=
          hempty.elim (fun h => by rw [Nat.sub_eq_zero_of_le h, Nat.zero_mul]) id
        simp [cost, allocationDelta, hzero]
      · rfl
    rw [record, foldl_cons, ← record, ih, hstep, map_cons, sum_cons, Int.natCast_add, add_assoc]

theorem segments_record (h : ∀ seg ∈ segments, seg.Recorded e) :
    (p.record segments).allocationSegments = p.allocationSegments ++ segments := by
  induction segments generalizing p with
  | nil => exact (append_nil _).symm
  | cons seg segments ih =>
    obtain ⟨hseg, h⟩ := forall_mem_cons.1 h
    have hcost : 0 < seg.cost (.globalStats .allocTotalBlocks) := Nat.mul_pos (Nat.sub_pos_of_lt hseg.nonempty) hseg.beam
    have hrecorded := not_or.2 ⟨not_le.2 hseg.nonempty, hcost.ne'⟩
    rw [record, foldl_cons, ← record, ih h, recordAllocationRange, if_neg hrecorded, append_assoc]
    rfl

theorem subtractSegments_counters (h : ∀ seg ∈ segments, seg.Recorded e)
    (hp : ∀ c, (segments.map (·.cost c)).sum ≤ p.counters c) (kept : List PendingAllocationSegment) :
    ∃ after, subtractSegments b e segments p kept = some after ∧
      ∀ c, after.counters c = p.counters c - ((segments.takeWhile (b < ·.blockEnd)).map (·.removed b c)).sum := by
  induction segments generalizing p kept with
  | nil => exact ⟨_, rfl, fun c => by simp⟩
  | cons seg before ih =>
    obtain ⟨hseg, h⟩ := forall_mem_cons.1 h
    have hbegin := hseg.nonempty
    simp only [map_cons, sum_cons, hseg.cost_eq (b := b)] at hp
    rw [subtractSegments]
    split
    · rename_i hend
      exact ⟨_, rfl, fun c => by simp [hend]⟩
    · rename_i hend
      have hnext : ∀ c, (p.subtract (seg.removed b)).counters c = p.counters c - seg.removed b c := by
        rintro (_ | _ | ⟨lc, field⟩)
        · rfl
        · rfl
        show ite .. = _
        split
        · rename_i hempty
          have hzero := hempty field
          have hle := hp (.iterationStats lc field)
          omega
        · rfl
      have hstep : ∀ kept, ∃ after, subtractSegments b e before (p.subtract (seg.removed b)) kept = some after ∧
          ∀ c, after.counters c = p.counters c -
            (seg.removed b c + ((before.takeWhile (b < ·.blockEnd)).map (·.removed b c)).sum : ℕ) := by
        simp only [Int.natCast_add, ← sub_sub, ← hnext]
        exact ih h fun c => by have hc := hp c; rw [hnext]; omega
      rw [min_eq_right hseg.le, if_neg (by omega), takeWhile_cons_of_pos (by simpa using hend)]
      simp only [map_cons, sum_cons, if_true]
      split
      · exact hstep _
      · exact hstep _

/-- The rewind counts as if the blocks from `b` on had not been recorded iff every segment before the first one that the
backward scan finds to end by `b` ends by `b` as well. -/
theorem subtractAllocationRange_eq_iff (base : PendingStats) (segments : List PendingAllocationSegment) (b e : ℕ)
    (hbase : base.allocationSegments = []) (hnonneg : ∀ c, 0 ≤ base.counters c)
    (h : ∀ seg ∈ segments, seg.Recorded e) :
    (∃ after, (base.record segments).subtractAllocationRange b e = some after ∧
      after.counters = (base.record (segments.map (·.upTo b))).counters) ↔
    ∀ seg ∈ segments.reverse.dropWhile (b < ·.blockEnd), seg.blockEnd ≤ b := by
  have hrev : ∀ seg ∈ segments.reverse, seg.Recorded e := fun seg hseg => h seg (mem_reverse.1 hseg)
  obtain ⟨after, hrun, hafter⟩ : ∃ after, (base.record segments).subtractAllocationRange b e = some after ∧
      ∀ c, after.counters c = (base.record segments).counters c -
        ((segments.reverse.takeWhile (b < ·.blockEnd)).map (·.removed b c)).sum := by
    rw [subtractAllocationRange, segments_record h, hbase, nil_append]
    split
    · rename_i hle
      refine ⟨_, rfl, fun c => ?_⟩
      rw [sum_eq_zero (forall_mem_map.2 fun seg hscan => ?_), Int.natCast_zero, sub_zero]
      have hseg := hrev seg ((takeWhile_sublist _).subset hscan)
      exact hseg.removed_eq_zero_iff.2 (hseg.le.trans hle) c
    · refine subtractSegments_counters hrev (fun c => ?_) []
      rw [counters_record, map_reverse, sum_reverse]
      exact le_add_of_nonneg_left (hnonneg c)
  have hcut : ∀ c, after.counters c = (base.record (segments.map (·.upTo b))).counters c ↔
      ∀ seg ∈ segments.reverse.dropWhile (b < ·.blockEnd), seg.removed b c = 0 := fun c => by
    have hsum : (segments.map (·.cost c)).sum = ((segments.map (·.upTo b)).map (·.cost c)).sum +
        (segments.reverse.map (·.removed b c)).sum := by
      rw [map_map, map_reverse, sum_reverse, ← sum_map_add, map_congr_left fun seg hseg => (h seg hseg).cost_eq c]
      rfl
    rw [← takeWhile_append_dropWhile (p := (b < ·.blockEnd)) (l := segments.reverse), map_append, sum_append] at hsum
    rw [hafter, counters_record, counters_record, hsum]
    refine Iff.trans ?_ (sum_eq_zero_iff.trans forall_mem_map)
    omega
  rw [hrun]
  simp only [Option.some.injEq, exists_eq_left', funext_iff, hcut]
  rw [forall_comm]
  refine forall_congr' fun seg => ?_
  rw [forall_comm]
  exact forall_congr' fun hlost => (hrev seg ((dropWhile_sublist _).subset hlost)).removed_eq_zero_iff

theorem subtractAllocationRange_full_attention :
    ∃ after, (({} : PendingStats).record [⟨0, 0, 10, 1, true, false⟩]).subtractAllocationRange 9 10 = some after ∧
      after.counters = (({} : PendingStats).record [⟨0, 0, 9, 1, true, false⟩]).counters :=
  (subtractAllocationRange_eq_iff {} [⟨0, 0, 10, 1, true, false⟩] 9 10 rfl (fun _ => le_rfl)
    (forall_mem_singleton.2 ⟨by decide, by decide, by decide⟩)).2 (by decide)

/-- A window of one token with two sink blocks beside full attention, one token per block: a cache grown to ten blocks
with a history of eight has segments that end at 10, 2 and 10. A cut at nine misses block 9 of the first. -/
theorem subtractAllocationRange_leaves_block :
    let segments := resizeSegments 0 10 1 [(0, (AttnLifeCycle.mk none 0).getStaleRange 8 1),
      (1, (AttnLifeCycle.mk (some 1) 2).getStaleRange 8 1)] false
    ((({} : PendingStats).record segments).subtractAllocationRange 9 10).map
      (·.counters (.globalStats .allocTotalBlocks)) = some 13 ∧
    (({} : PendingStats).record (segments.map (·.upTo 9))).counters (.globalStats .allocTotalBlocks) = 12 := by
  decide

end PendingStats

end TrtLlm.KvCache
