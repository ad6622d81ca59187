import Mathlib

/-!
# Expert placement

One layer of the MoE load balancer. A load-driven update gives the experts replicas in proportion to their loads
(`doReplication`) and spreads them over the slots of the live ranks (`doPlacement`); a mask-only reconfiguration takes
the slots of dead ranks out of the published table. The GPU gets the slots expert by expert (`prepareGpuPlacementInfo`).

Loads are exact numbers. Tables that every update writes before it reads them are not part of the state.
-/

namespace TrtLlm.Runtime

open Finset Function

structure MetaInfo where
  expertCount : ℕ
  epSize : ℕ
  slotCountPerRank : ℕ
  epRank : Fin epSize

inductive PlacementError where
  | fewerActiveSlots
  | replicaCountNotPositive
  | replicaSum
  | noActiveRank
  | emptyQueue
  | localSlotId
  | tooManyReplicas
  | placedSlotCount
  | deadRankOutOfRange
  | localRankMasked
  | noSurvivingReplica

abbrev Expert (m : MetaInfo) := Fin m.expertCount

abbrev Slot (m : MetaInfo) := Fin m.epSize × Fin m.slotCountPerRank

/-- `rankExpertIds`, with `none` for -1. -/
abbrev SlotTable (m : MetaInfo) := Slot m → Option (Expert m)

variable {m : MetaInfo} (load : Expert m → ℚ) (deadRankMask : Fin m.epSize → Bool) (table : SlotTable m)
  (replicaCount : Expert m → ℕ)

def slots (m : MetaInfo) : List (Slot m) := List.finRange m.epSize ×ˢ List.finRange m.slotCountPerRank

def getActiveSlotCount : ℕ := #{rank | deadRankMask rank = false} * m.slotCountPerRank

/-- The greedy loop of `doReplication`; the queue is sorted, largest slot size first. -/
def replicateGreedily :
    ℕ → (Expert m → ℕ) → List (ℚ ×ₗ Expert m) → Except PlacementError (Expert m → ℕ)
  | 0, replicaCount, _ => .ok replicaCount
  | _ + 1, _, [] => .error .emptyQueue
  | n + 1, replicaCount, top :: pq =>
    let expertId := (ofLex top).2
    let replicaCount := update replicaCount expertId (replicaCount expertId + 1)
    replicateGreedily n replicaCount (pq.orderedInsert (· ≥ ·) (toLex (load expertId / replicaCount expertId, expertId)))

def doReplication : Except PlacementError (Expert m → ℕ) :=
  let totalSlotCount := getActiveSlotCount deadRankMask
  if totalSlotCount < m.expertCount then .error .fewerActiveSlots
  else if totalSlotCount = m.expertCount then .ok fun _ => 1
  else if ∑ e, load e = 0 then
    .ok fun e => totalSlotCount / m.expertCount + if e < totalSlotCount % m.expertCount then 1 else 0
  else
    replicateGreedily load (totalSlotCount - m.expertCount) (fun _ => 1)
      (((List.finRange m.expertCount).map fun e => toLex (load e, e)).insertionSort (· ≥ ·))

structure Assignment (m : MetaInfo) where
  rankExpertIds : SlotTable m := fun _ => none
  currentRankSlots : Fin m.epSize → ℕ := fun _ => 0
  /-- Sorted, smallest load first. -/
  pq : List (ℚ ×ₗ Fin m.epSize)

def assignReplica (st : Assignment m) (replica : ℚ × Expert m) : Except PlacementError (Assignment m) :=
  match st.pq with
  | [] => .error .emptyQueue
  | top :: pq =>
    let bestRank := (ofLex top).2
    let localSlotId := st.currentRankSlots bestRank
    if h : localSlotId < m.slotCountPerRank then
      .ok {
        rankExpertIds := update st.rankExpertIds (bestRank, ⟨localSlotId, h⟩) (some replica.2)
        currentRankSlots := update st.currentRankSlots bestRank (localSlotId + 1)
        pq :=
          if localSlotId + 1 < m.slotCountPerRank then
            pq.orderedInsert (· ≤ ·) (toLex ((ofLex top).1 + replica.1, bestRank))
          else pq }
    else .error .localSlotId

def allReplicas : List (ℚ × Expert m) :=
  (List.finRange m.expertCount).flatMap fun e => List.replicate (replicaCount e) (load e / replicaCount e, e)

def sortedReplicas : List (ℚ × Expert m) :=
  (allReplicas load replicaCount).insertionSort fun a b => b.1 < a.1 ∨ a.1 = b.1 ∧ a.2 ≤ b.2

def doPlacement : Except PlacementError (SlotTable m) :=
  let pq := ((List.finRange m.epSize).filter (!deadRankMask ·)).map fun rank => toLex ((0 : ℚ), rank)
  if ∃ e, replicaCount e = 0 then .error .replicaCountNotPositive
  else if (allReplicas load replicaCount).length ≠ getActiveSlotCount deadRankMask then .error .replicaSum
  else if pq = [] then .error .noActiveRank
  else ((sortedReplicas load replicaCount).foldlM assignReplica { pq := pq }).map (·.rankExpertIds)

structure PlacementInfo (m : MetaInfo) where
  expertReplicaCount : Expert m → ℕ
  expertReplicaStartOffset : Expert m → ℕ
  globalSlotIds : ℕ → ℕ

def globalSlotId (slot : Slot m) : ℕ := slot.1 * m.slotCountPerRank + slot.2

def startOffset (e : Expert m) : ℕ := ∑ e' ∈ Iio e, replicaCount e'

structure Gathering (m : MetaInfo) where
  slotsOf : Expert m → List ℕ := fun _ => []
  globalSlotIds : ℕ → ℕ := fun _ => m.epSize * m.slotCountPerRank
  assignedSlotCount : ℕ := 0

def gatherSlot (st : Gathering m) (slot : Slot m) : Except PlacementError (Gathering m) :=
  match table slot with
  | none => .ok st
  | some e =>
    let replicaId := (st.slotsOf e).length
    if replicaId < replicaCount e then
      .ok {
        slotsOf := update st.slotsOf e (st.slotsOf e ++ [globalSlotId slot])
        globalSlotIds := update st.globalSlotIds (startOffset replicaCount e + replicaId) (globalSlotId slot)
        assignedSlotCount := st.assignedSlotCount + 1 }
    else .error .tooManyReplicas

def prepareGpuPlacementInfo : Except PlacementError (PlacementInfo m) := do
  let st ← (slots m).foldlM (gatherSlot table replicaCount) {}
  if st.assignedSlotCount = ∑ e, replicaCount e then
    return ⟨replicaCount, startOffset replicaCount, st.globalSlotIds⟩
  throw .placedSlotCount

structure LayerState (m : MetaInfo) where
  oldRankExpertIds : SlotTable m
  gpuPlacement : PlacementInfo m
  deadRankMask : Fin m.epSize → Bool

/-- `prepareGpuPlacementInfo` and `copyPlacementInfoToGpu`. -/
def publish : Except PlacementError (LayerState m) := do
  let info ← prepareGpuPlacementInfo table replicaCount
  return ⟨table, info, deadRankMask⟩

/-- The counts that `setInitialWeightAssignments` and `computeMaskOnlyReplicaCounts` take from a table. -/
def replicaCounts (e : Expert m) : ℕ := #{slot | table slot = some e}

def setInitialWeightAssignments (assignments : Slot m → Expert m) : Except PlacementError (LayerState m) :=
  let table slot := some (assignments slot)
  publish (fun _ => false) table (replicaCounts table)

namespace LayerState

variable (s : LayerState m)

def updateWeightsRoutine : Except PlacementError (LayerState m) := do
  let replicaCount ← doReplication load s.deadRankMask
  let table ← doPlacement load s.deadRankMask replicaCount
  publish s.deadRankMask table replicaCount

def masked : SlotTable m := fun slot => if deadRankMask slot.1 then none else s.oldRankExpertIds slot

def reconfigureMaskOnly (deadRanks : List ℤ) : Except PlacementError (LayerState m) :=
  let candidate (rank : Fin m.epSize) := s.deadRankMask rank || deadRanks.contains (rank : ℤ)
  let table := s.masked candidate
  if ∃ r ∈ deadRanks, r < 0 ∨ m.epSize ≤ r then .error .deadRankOutOfRange
  else if candidate m.epRank then .error .localRankMasked
  else if ∃ e, replicaCounts table e = 0 then .error .noSurvivingReplica
  else publish candidate table (replicaCounts table)

inductive Op (m : MetaInfo) where
  | updateWeights (load : Expert m → ℚ)
  | reconfigureMaskOnly (deadRanks : List ℤ)

/-- A call that is rejected has written nothing. -/
def exec (s : LayerState m) : Op m → LayerState m
  | .updateWeights load => (s.updateWeightsRoutine load).toOption.getD s
  | .reconfigureMaskOnly deadRanks => (s.reconfigureMaskOnly deadRanks).toOption.getD s

end LayerState

def PlacementInfo.segment (info : PlacementInfo m) (e : Expert m) : List ℕ :=
  (List.range (info.expertReplicaCount e)).map fun j => info.globalSlotIds (info.expertReplicaStartOffset e + j)

/-- A published placement is complete and consistent. -/
structure LayerState.Complete (s : LayerState m) : Prop where
  positive : ∀ e, 0 < s.gpuPlacement.expertReplicaCount e
  sum : ∑ e, s.gpuPlacement.expertReplicaCount e = getActiveSlotCount s.deadRankMask
  live : ∀ slot, (s.oldRankExpertIds slot).isSome ↔ s.deadRankMask slot.1 = false
  nodup : ∀ e, (s.gpuPlacement.segment e).Nodup
  mem_segment : ∀ e g, g ∈ s.gpuPlacement.segment e ↔
    ∃ slot, s.deadRankMask slot.1 = false ∧ s.oldRankExpertIds slot = some e ∧ globalSlotId slot = g
  local_live : s.deadRankMask m.epRank = false

variable {mask : Fin m.epSize → Bool} {counts : Expert m → ℕ} {table}

theorem card_live : #{slot : Slot m | mask slot.1 = false} = getActiveSlotCount mask := by
  rw [← univ_product_univ, filter_product_left (mask · = false), card_product, card_univ, Fintype.card_fin, getActiveSlotCount]

theorem sum_replicaCounts : ∑ e, replicaCounts table e = #{slot | (table slot).isSome} := by
  simp only [replicaCounts, card_filter]
  rw [sum_comm]
  apply sum_congr rfl
  intro slot _
  cases table slot <;> simp

/-- The queue holds the slot size of every expert once, and no expert could do with a replica less: its slots would be
larger than all present ones. -/
structure Greedy (counts : Expert m → ℕ) (pq : List (ℚ ×ₗ Expert m)) : Prop where
  pos : ∀ e, 0 < counts e
  mem : ∀ q e, toLex (q, e) ∈ pq ↔ q = load e / counts e
  nodup : pq.Nodup
  sorted : pq.Pairwise (· ≥ ·)
  tight : (∀ e, 0 ≤ load e) → ∀ e e', 1 < counts e → load e' / counts e' ≤ load e / (counts e - 1 : ℕ)

theorem Greedy.start :
    Greedy load (fun _ => 1) (((List.finRange m.expertCount).map fun e => toLex (load e, e)).insertionSort (· ≥ ·)) where
  pos _ := one_pos
  mem q e := by simp [eq_comm]
  nodup := by
    rw [(List.perm_insertionSort ..).nodup_iff]
    apply (List.nodup_finRange _).map
    intro e e' heq
    exact (Prod.mk.inj heq).2
  sorted := List.pairwise_insertionSort ..
  tight _ e e' hone := absurd hone (lt_irrefl 1)

variable {load} in
theorem Greedy.next {q : ℚ} {e : Expert m} {pq : List (ℚ ×ₗ Expert m)} (h : Greedy load counts (toLex (q, e) :: pq)) :
    Greedy load (update counts e (counts e + 1))
      (pq.orderedInsert (· ≥ ·) (toLex (load e / (update counts e (counts e + 1) e : ℕ), e))) := by
  have hq : q = load e / counts e := (h.mem q e).1 (.head _)
  have hmem : ∀ q' e', toLex (q', e') ∈ pq ↔ q' = load e' / counts e' ∧ e' ≠ e := by
    intro q' e'
    constructor
    · intro hin
      have hq' := (h.mem q' e').1 (.tail _ hin)
      refine ⟨hq', ?_⟩
      rintro rfl
      rw [hq', ← hq] at hin
      exact (List.nodup_cons.1 h.nodup).1 hin
    · intro ⟨hq', he⟩
      exact (List.mem_cons.1 ((h.mem q' e').2 hq')).resolve_left fun heq => he (Prod.mk.inj heq).2
  have hperm := List.perm_orderedInsert (· ≥ ·) (toLex (load e / (update counts e (counts e + 1) e : ℕ), e)) pq
  constructor
  case pos =>
    intro e'
    by_cases he : e' = e <;> simp [he, h.pos]
  case mem =>
    intro q' e'
    rw [hperm.mem_iff, List.mem_cons, hmem]
    by_cases he : e' = e <;> simp [he]
  case nodup =>
    rw [hperm.nodup_iff, List.nodup_cons, hmem]
    exact ⟨fun hin => hin.2 rfl, h.nodup.of_cons⟩
  case sorted => exact h.sorted.of_cons.orderedInsert _ _
  case tight =>
    intro hload a a' hone
    have htop : load a' / counts a' ≤ load e / counts e := by
      rw [← hq]
      rcases List.mem_cons.1 ((h.mem _ a').2 rfl) with heq | hin
      · exact (Prod.mk.inj heq).1.le
      · exact Prod.Lex.monotone_fst _ _ (List.rel_of_pairwise_cons h.sorted hin)
    have hle : load a' / (update counts e (counts e + 1) a' : ℕ) ≤ load a' / counts a' := by
      apply div_le_div_of_nonneg_left (hload a') (Nat.cast_pos.2 (h.pos a')) (Nat.cast_le.2 _)
      by_cases ha : a' = e <;> simp [ha]
    by_cases ha : a = e
    · subst ha
      simpa using hle.trans htop
    · rw [update_of_ne ha] at hone ⊢
      exact hle.trans (h.tight hload a a' hone)

theorem replicateGreedily_spec (n : ℕ) {pq : List (ℚ ×ₗ Expert m)} (hexpert : 0 < m.expertCount) (h : Greedy load counts pq) :
    ∃ counts' pq', replicateGreedily load n counts pq = .ok counts' ∧ Greedy load counts' pq' ∧
      ∑ e, counts' e = ∑ e, counts e + n := by
  induction n generalizing counts pq with
  | zero => exact ⟨counts, pq, rfl, h, rfl⟩
  | succ n ih =>
    have hfirst := (h.mem _ ⟨0, hexpert⟩).2 rfl
    obtain ⟨top, pq, rfl⟩ := List.exists_cons_of_ne_nil (List.ne_nil_of_mem hfirst)
    obtain ⟨counts', pq', hrun, hgreedy, hsum⟩ := ih (Greedy.next (q := (ofLex top).1) (e := (ofLex top).2) h)
    refine ⟨counts', pq', hrun, hgreedy, ?_⟩
    have heq : ∀ e, update counts e (counts e + 1) = fun e' => counts e' + if e' = e then 1 else 0 := by
      intro e
      funext e'
      split <;> simp [*]
    rw [hsum, heq, sum_add_distrib, sum_ite_eq' univ, if_pos (mem_univ _)]
    omega

/-- A count that is smaller elsewhere needs an expert whose slots are at least as large as the largest ones here. -/
theorem Greedy.optimal {pq : List (ℚ ×ₗ Expert m)} (h : Greedy load counts pq) (hload : ∀ e, 0 ≤ load e) {d : Expert m → ℕ} (hd : ∀ e, 0 < d e)
    (hsum : ∑ e, d e = ∑ e, counts e) (e : Expert m) : ∃ e', load e / counts e ≤ load e' / d e' := by
  by_contra! hless
  have hmore : ∀ e' n, 0 < n → load e / counts e ≤ load e' / (n : ℕ) → n < d e' := by
    intro e' n hn hle
    by_contra! hdn
    have hdiv : load e' / n ≤ load e' / d e' :=
      div_le_div_of_nonneg_left (hload e') (Nat.cast_pos.2 (hd e')) (Nat.cast_le.2 hdn)
    exact (hless e').not_ge (hle.trans hdiv)
  have hge : ∀ e' ∈ univ, counts e' ≤ d e' := by
    intro e' _
    by_cases hone : 1 < counts e'
    · have hlt := hmore e' (counts e' - 1) (Nat.sub_pos_of_lt hone) (h.tight hload e' e hone)
      omega
    · exact (not_lt.1 hone).trans (hd e')
  have hlt := sum_lt_sum hge ⟨e, mem_univ e, hmore e (counts e) (h.pos e) le_rfl⟩
  omega

/-- The check of `doReplication` passes as soon as some replica counts fill the active slots. -/
theorem doReplication_spec (hpos : ∀ e, 0 < counts e) (hsum : ∑ e, counts e = getActiveSlotCount mask) :
    ∃ counts, doReplication load mask = .ok counts ∧ (∀ e, 0 < counts e) ∧ ∑ e, counts e = getActiveSlotCount mask := by
  have hle : m.expertCount ≤ getActiveSlotCount mask := by
    have hone : ∑ _ : Expert m, 1 ≤ ∑ e, counts e := sum_le_sum fun e _ => hpos e
    simpa [hsum] using hone
  rw [doReplication, if_neg hle.not_gt]
  split
  · rename_i heq
    exact ⟨_, rfl, fun _ => one_pos, by simp [heq]⟩
  have hexpert : 0 < m.expertCount := by
    by_contra hzero
    have hempty : IsEmpty (Expert m) := ⟨fun e => hzero e.pos⟩
    rw [univ_eq_empty, sum_empty] at hsum
    omega
  split
  · refine ⟨_, rfl, fun e => Nat.add_pos_left (Nat.div_pos hle hexpert) _, ?_⟩
    rw [sum_add_distrib, sum_boole, Nat.cast_id, Fin.card_filter_val_lt, sum_const, card_univ, Fintype.card_fin,
      smul_eq_mul, min_eq_right (Nat.mod_lt _ hexpert).le, Nat.div_add_mod]
  · obtain ⟨counts, _, hrun, hgreedy, htotal⟩ := replicateGreedily_spec load (getActiveSlotCount mask - m.expertCount) hexpert
      (.start load)
    refine ⟨counts, hrun, hgreedy.pos, htotal.trans ?_⟩
    simpa using Nat.add_sub_of_le hle

/-- No other allocation of the active slots has a smaller largest slot size. -/
theorem doReplication_optimal (hslots : m.expertCount ≤ getActiveSlotCount mask) (hload : ∀ e, 0 ≤ load e)
    (hsome : ∃ e, load e ≠ 0) :
    ∃ counts, doReplication load mask = .ok counts ∧ (∀ e, 0 < counts e) ∧ ∑ e, counts e = getActiveSlotCount mask ∧
      ∀ d : Expert m → ℕ, (∀ e, 0 < d e) → ∑ e, d e = getActiveSlotCount mask →
        ∀ e, ∃ e', load e / counts e ≤ load e' / d e' := by
  obtain ⟨busy, hbusy⟩ := hsome
  have hne : ∑ e, load e ≠ 0 := fun hzero => hbusy ((sum_eq_zero_iff_of_nonneg fun e _ => hload e).1 hzero busy (mem_univ busy))
  obtain ⟨counts, pq, hrun, hgreedy, htotal⟩ := replicateGreedily_spec load (getActiveSlotCount mask - m.expertCount) busy.pos
    (.start load)
  have hsum : ∑ e, counts e = getActiveSlotCount mask := htotal.trans (by simpa using Nat.add_sub_of_le hslots)
  refine ⟨counts, ?_, hgreedy.pos, hsum, fun d hd htotal => hgreedy.optimal load hload hd (htotal.trans hsum.symm)⟩
  rw [doReplication, if_neg hslots.not_gt, hrun]
  split
  · rename_i heq
    rw [heq, Nat.sub_self] at hrun
    exact hrun
  · rfl

theorem doReplication_optimal_two_experts : ∃ counts, doReplication (m := ⟨2, 1, 3, 0⟩) ![1, 2] (fun _ => false) = .ok counts ∧
    ∀ d : Fin 2 → ℕ, (∀ e, 0 < d e) → ∑ e, d e = 3 → ∀ e, ∃ e', ![1, 2] e / (counts e : ℚ) ≤ ![1, 2] e' / d e' := by
  obtain ⟨counts, hok, -, -, hmin⟩ : ∃ counts, doReplication (m := ⟨2, 1, 3, 0⟩) ![1, 2] (fun _ => false) = .ok counts ∧ _ :=
    doReplication_optimal _ (by decide) (by decide) ⟨0, by decide⟩
  exact ⟨counts, hok, hmin⟩

theorem card_update {slot : Slot m} (hnone : table slot = none) (e : Expert m) (p : Expert m → Bool) :
    #{x | (update table slot (some e) x).any p} = #{x | (table x).any p} + if p e then 1 else 0 := by
  have heq : univ.filter (fun x => (update table slot (some e) x).any p) =
      if p e then insert slot (univ.filter fun x => (table x).any p) else univ.filter fun x => (table x).any p := by
    ext x
    by_cases hx : x = slot <;> split <;> simp [*]
  rw [heq]
  split
  · exact card_insert_of_notMem (by simp [hnone])
  · rfl

/-- A loop whose rounds all succeed, with what holds after each prefix of its list. -/
theorem foldlM_ok {α β ε : Type*} {f : β → α → Except ε β} {I : List α → β → Prop} {l : List α} {b : β} (hinit : I [] b)
    (hstep : ∀ done a b, done ++ [a] <+: l → I done b → ∃ b', f b a = .ok b' ∧ I (done ++ [a]) b') :
    ∃ b', l.foldlM f b = .ok b' ∧ I l b' := by
  induction l using List.reverseRecOn with
  | nil => exact ⟨b, rfl, hinit⟩
  | append_singleton l a ih =>
    obtain ⟨b', hrun, hb'⟩ := ih fun done a b hdone => hstep done a b (hdone.trans (List.prefix_append l [_]))
    obtain ⟨b'', hlast, hb''⟩ := hstep l a b' List.prefix_rfl hb'
    refine ⟨b'', ?_, hb''⟩
    rw [List.foldlM_append, hrun]
    simp [bind, Except.bind, pure, Except.pure, hlast]

/-- After the replicas of `done` the queue holds the live ranks that have free slots. -/
structure Assigning (mask : Fin m.epSize → Bool) (done : List (Expert m)) (st : Assignment m) : Prop where
  queued : 0 < m.slotCountPerRank → ∀ rank, rank ∈ st.pq.map (fun entry => (ofLex entry).2) ↔
    mask rank = false ∧ st.currentRankSlots rank < m.slotCountPerRank
  nodup : (st.pq.map fun entry => (ofLex entry).2).Nodup
  filled : ∀ slot, (st.rankExpertIds slot).isSome ↔ mask slot.1 = false ∧ slot.2 < st.currentRankSlots slot.1
  placed : ∀ p : Expert m → Bool, #{slot | (st.rankExpertIds slot).any p} = done.countP p

theorem Assigning.card_filled {st : Assignment m} {done : List (Expert m)} (h : Assigning mask done st) :
    #{slot | (st.rankExpertIds slot).isSome} = done.length := by
  have hall := h.placed fun _ => true
  rw [List.countP_true] at hall
  simpa only [Option.any_true] using hall

theorem Assigning.next {st : Assignment m} {done : List (Expert m)} (h : Assigning mask done st)
    (hroom : done.length < getActiveSlotCount mask) (replica : ℚ × Expert m) :
    ∃ st', assignReplica st replica = .ok st' ∧ Assigning mask (done ++ [replica.2]) st' := by
  rw [← h.card_filled, ← card_live] at hroom
  obtain ⟨free, hlive, hnone⟩ := exists_mem_notMem_of_card_lt_card hroom
  rw [mem_filter, h.filled] at hnone
  have hspr : 0 < m.slotCountPerRank := free.2.pos
  have hmem : free.1 ∈ st.pq.map fun entry => (ofLex entry).2 := by
    rw [h.queued hspr]
    grind
  cases hpq : st.pq with
  | nil => simp [hpq] at hmem
  | cons top pq =>
    obtain ⟨hrank, hbelow⟩ := (h.queued hspr (ofLex top).2).1 (by simp [hpq])
    have hempty : st.rankExpertIds ((ofLex top).2, ⟨_, hbelow⟩) = none := by
      rw [← Option.not_isSome_iff_eq_none, h.filled]
      simp
    have hnodup := h.nodup
    rw [hpq] at hnodup
    have hinsert : ∀ x, ((pq.orderedInsert (· ≤ ·) (toLex (x, (ofLex top).2))).map fun entry => (ofLex entry).2).Perm
        ((ofLex top).2 :: pq.map fun entry => (ofLex entry).2) := fun x => (List.perm_orderedInsert ..).map _
    refine ⟨_, by rw [assignReplica, hpq]; exact dif_pos hbelow, fun _ rank => ?_, ?_, fun slot => ?_, fun p => ?_⟩
    · have hold := h.queued hspr rank
      split
      · grind
      · grind
    · split
      · exact (hinsert _).nodup_iff.2 hnodup
      · exact hnodup.of_cons
    · have hold := h.filled slot
      grind
    · rw [card_update hempty, h.placed, List.countP_append, List.countP_singleton]

theorem length_allReplicas : (allReplicas load counts).length = ∑ e, counts e := by
  simp [allReplicas, Fin.sum_univ_def]

theorem countP_allReplicas (e : Expert m) : ((allReplicas load counts).map Prod.snd).countP (· = e) = counts e := by
  rw [List.countP_map, allReplicas, List.countP_flatMap]
  simp only [List.countP_replicate, comp_def, decide_eq_true_eq]
  rw [← Fin.sum_univ_def, sum_ite_eq' univ e, if_pos (mem_univ e)]

theorem doPlacement_spec (hpos : ∀ e, 0 < counts e) (hsum : ∑ e, counts e = getActiveSlotCount mask)
    (hlocal : mask m.epRank = false) :
    ∃ table, doPlacement load mask counts = .ok table ∧ (∀ slot, (table slot).isSome ↔ mask slot.1 = false) ∧
      replicaCounts table = counts := by
  have hperm : (sortedReplicas load counts).Perm (allReplicas load counts) := List.perm_insertionSort _ _
  have hlength := (length_allReplicas load).trans hsum
  set pq := ((List.finRange m.epSize).filter (!mask ·)).map fun rank => toLex ((0 : ℚ), rank) with hpq
  have hranks : pq.map (fun entry => (ofLex entry).2) = (List.finRange m.epSize).filter (!mask ·) := by
    simp [hpq, comp_def]
  have hstart : Assigning mask [] { pq := pq } := by
    refine ⟨fun hspr rank => by simp [hranks, hspr], ?_, by simp, by simp⟩
    rw [hranks]
    exact (List.nodup_finRange _).filter _
  obtain ⟨st, hrun, hst⟩ := foldlM_ok (l := sortedReplicas load counts)
    (I := fun done st => Assigning mask (done.map Prod.snd) st) hstart fun done replica st hdone h => by
      have hle := hdone.length_le
      rw [hperm.length_eq, List.length_append, List.length_singleton] at hle
      simpa using h.next (by rw [List.length_map]; omega) replica
  refine ⟨st.rankExpertIds, ?_, fun slot => ?_, ?_⟩
  · have hne : pq ≠ [] := by
      intro hnil
      rw [hnil, List.map_nil, eq_comm, List.filter_eq_nil_iff] at hranks
      simpa [hlocal] using hranks m.epRank (List.mem_finRange _)
    have hnot : ¬∃ e, counts e = 0 := fun ⟨e, he⟩ => (hpos e).ne' he
    rw [doPlacement, if_neg hnot, if_neg (not_not.2 hlength), if_neg hne, hrun]
    rfl
  · have hfull : univ.filter (fun slot => (st.rankExpertIds slot).isSome) = univ.filter fun slot => mask slot.1 =
      false := by
      apply eq_of_subset_of_card_le
      · intro slot hslot
        rw [mem_filter, hst.filled] at hslot
        exact mem_filter.2 ⟨hslot.1, hslot.2.1⟩
      · rw [card_live, hst.card_filled, List.length_map, hperm.length_eq, hlength]
    simpa using Finset.ext_iff.1 hfull slot
  · funext e
    have hplaced := hst.placed fun x => decide (x = e)
    rw [(hperm.map _).countP_eq, countP_allReplicas] at hplaced
    rw [replicaCounts, ← hplaced]
    simp [Option.any_eq_true]

theorem startOffset_add_le (counts : Expert m → ℕ) {e e' : Expert m} (hlt : e < e') :
    startOffset counts e + counts e ≤ startOffset counts e' := by
  rw [startOffset, add_comm, ← sum_insert notMem_Iio_self]
  exact sum_le_sum_of_subset fun x hx => by grind

structure Gathered (table : SlotTable m) (counts : Expert m → ℕ) (done : List (Slot m)) (st : Gathering m) : Prop where
  slotsOf : ∀ e, st.slotsOf e = (done.filter (table · = some e)).map globalSlotId
  written : ∀ e j g, (st.slotsOf e)[j]? = some g → st.globalSlotIds (startOffset counts e + j) = g
  assigned : st.assignedSlotCount = done.countP fun slot => (table slot).isSome

theorem Gathered.next {st : Gathering m} {done : List (Slot m)} (h : Gathered table counts done st) {slot : Slot m}
    (hle : ∀ e, (done ++ [slot]).countP (table · = some e) ≤ counts e) :
    ∃ st', gatherSlot table counts st slot = .ok st' ∧ Gathered table counts (done ++ [slot]) st' := by
  have hbound : ∀ e, (st.slotsOf e).length + (if table slot = some e then 1 else 0) ≤ counts e := by
    intro e
    have := hle e
    rw [List.countP_append, List.countP_eq_length_filter] at this
    simpa [h.slotsOf e] using this
  cases hslot : table slot with
  | none =>
    refine ⟨st, by rw [gatherSlot, hslot], fun e => ?_, h.written, ?_⟩
    · simp [h.slotsOf e, hslot]
    · simp [h.assigned, hslot]
  | some e =>
    have hlt : (st.slotsOf e).length < counts e := by simpa [hslot, Nat.succ_le_iff] using hbound e
    refine ⟨_, by rw [gatherSlot, hslot]; exact if_pos hlt, fun e' => ?_, fun e' j g hg => ?_, ?_⟩
    · by_cases he : e' = e
      · subst he
        simp [h.slotsOf e', hslot]
      · simp [h.slotsOf e', hslot, he, Ne.symm he]
    · dsimp only at hg ⊢
      rw [update_apply] at hg ⊢
      have hj : j < counts e' := by
        have hlength := (getElem?_eq_some_iff.1 hg).1
        split at hlength <;> grind
      by_cases hoffset : startOffset counts e' + j = startOffset counts e + (st.slotsOf e).length
      · obtain ⟨rfl, rfl⟩ : e' = e ∧ j = (st.slotsOf e).length := by
          rcases lt_trichotomy e' e with hlt' | rfl | hlt'
          · have := startOffset_add_le counts hlt'
            omega
          · exact ⟨rfl, by omega⟩
          · have := startOffset_add_le counts hlt'
            omega
        simpa using hg
      · rw [if_neg hoffset]
        apply h.written
        grind
    · simp [h.assigned, hslot]

theorem nodup_slots (m : MetaInfo) : (slots m).Nodup := (List.nodup_finRange _).product (List.nodup_finRange _)

theorem mem_slots (slot : Slot m) : slot ∈ slots m := List.mem_product.2 ⟨List.mem_finRange _, List.mem_finRange _⟩

theorem countP_slots (p : Slot m → Bool) : (slots m).countP p = #{slot | p slot = true} := by
  have huniv : (slots m).toFinset = univ := by
    ext slot
    simp [mem_slots]
  rw [← huniv, ← List.toFinset_filter, List.toFinset_card_of_nodup ((nodup_slots m).filter _), List.countP_eq_length_filter]

theorem prepareGpuPlacementInfo_spec (table : SlotTable m) :
    ∃ info, prepareGpuPlacementInfo table (replicaCounts table) = .ok info ∧
      info.expertReplicaCount = replicaCounts table ∧
      ∀ e, info.segment e = ((slots m).filter (table · = some e)).map globalSlotId := by
  have hcard : ∀ e, (slots m).countP (table · = some e) = replicaCounts table e := fun e =>
    (countP_slots _).trans (by simp [replicaCounts])
  obtain ⟨st, hrun, hst⟩ := foldlM_ok
    (I := Gathered table (replicaCounts table)) (b := {}) ⟨by simp, by simp, rfl⟩ fun done slot st hdone h =>
      h.next fun e => (hdone.sublist.countP_le).trans_eq (hcard e)
  have hassigned : st.assignedSlotCount = ∑ e, replicaCounts table e := by
    rw [hst.assigned, countP_slots, sum_replicaCounts]
  refine ⟨_, by rw [prepareGpuPlacementInfo, hrun]; exact if_pos hassigned, rfl, fun e => ?_⟩
  have hlength : (st.slotsOf e).length = replicaCounts table e := by
    rw [hst.slotsOf, List.length_map, ← List.countP_eq_length_filter, hcard]
  rw [← hst.slotsOf e]
  refine List.ext_getElem (by simp [PlacementInfo.segment, hlength]) fun j hj hj' => ?_
  simpa [PlacementInfo.segment] using hst.written e j _ (List.getElem?_eq_getElem hj')

theorem publish_spec (mask : Fin m.epSize → Bool) (hlive : ∀ slot, (table slot).isSome ↔ mask slot.1 = false)
    (hpos : ∀ e, 0 < replicaCounts table e) (hlocal : mask m.epRank = false) :
    ∃ s, publish mask table (replicaCounts table) = .ok s ∧ s.Complete := by
  obtain ⟨info, hinfo, hcount, hsegment⟩ := prepareGpuPlacementInfo_spec table
  refine ⟨_, by rw [publish, hinfo]; rfl, ?_, ?_, hlive, fun e => ?_, fun e g => ?_, hlocal⟩
  · simpa [hcount] using hpos
  · rw [hcount, sum_replicaCounts, ← card_live]
    simp [hlive]
  · rw [hsegment]
    refine ((nodup_slots m).filter _).map fun slot slot' heq => ?_
    apply finProdFinEquiv.injective
    apply Fin.ext
    simpa [globalSlotId, add_comm, mul_comm] using heq
  · simp only [hsegment, List.mem_map, List.mem_filter, mem_slots, true_and, decide_eq_true_eq]
    exact exists_congr fun slot => ⟨fun h => ⟨(hlive slot).1 (by simp [h.1]), h⟩, And.right⟩

namespace LayerState

variable {s : LayerState m}

theorem Complete.updateWeightsRoutine (h : s.Complete) : ∃ t, s.updateWeightsRoutine load = .ok t ∧ t.Complete := by
  obtain ⟨counts, hcounts, hpos, hsum⟩ := doReplication_spec load h.positive h.sum
  obtain ⟨table, htable, hlive, rfl⟩ := doPlacement_spec load hpos hsum h.local_live
  obtain ⟨t, ht, hcomplete⟩ := publish_spec _ hlive hpos h.local_live
  refine ⟨t, ?_, hcomplete⟩
  simp only [LayerState.updateWeightsRoutine, hcounts, htable, ht, bind, Except.bind]

theorem Complete.reconfigureMaskOnly (h : s.Complete) {deadRanks : List ℤ} {t : LayerState m}
    (ht : s.reconfigureMaskOnly deadRanks = .ok t) : t.Complete := by
  unfold LayerState.reconfigureMaskOnly at ht
  extract_lets candidate table at ht
  split_ifs at ht with _ hlocal hsurvive
  have hlive : ∀ slot, (table slot).isSome ↔ candidate slot.1 = false := by
    intro slot
    cases hdead : candidate slot.1 with
    | true => simp [table, masked, hdead]
    | false => simpa [table, masked, hdead] using (h.live slot).2 (Bool.or_eq_false_iff.1 hdead).1
  obtain ⟨t', ht', hcomplete⟩ := publish_spec _ hlive (fun e => pos_of_ne_zero fun he => hsurvive ⟨e, he⟩)
    (Bool.eq_false_iff.2 hlocal)
  cases ht.symm.trans ht'
  exact hcomplete

theorem Complete.exec (h : s.Complete) (op : Op m) : (s.exec op).Complete := by
  cases op with
  | updateWeights load =>
    obtain ⟨t, ht, hcomplete⟩ := h.updateWeightsRoutine load
    rw [LayerState.exec, ht]
    exact hcomplete
  | reconfigureMaskOnly deadRanks =>
    rw [LayerState.exec]
    cases ht : s.reconfigureMaskOnly deadRanks with
    | error e => exact h
    | ok t => exact h.reconfigureMaskOnly ht

end LayerState

/-- From an assignment with a slot for every expert on, every published placement is complete and consistent, whatever
updates and masks come, and no check of a load-driven update fails. -/
theorem placement_complete (assignments : Slot m → Expert m) (hall : ∀ e, ∃ slot, assignments slot = e)
    (ops : List (LayerState.Op m)) :
    ∃ s, setInitialWeightAssignments assignments = .ok s ∧ (ops.foldl LayerState.exec s).Complete ∧
      ∀ load, ∃ t, (ops.foldl LayerState.exec s).updateWeightsRoutine load = .ok t := by
  obtain ⟨s, hs, hcomplete⟩ := publish_spec (fun _ => false)
    (show ∀ slot, (some (assignments slot)).isSome ↔ false = false by simp)
    (fun e => card_pos.2 ((hall e).imp fun slot h => by simp [h])) rfl
  have hrun : (ops.foldl LayerState.exec s).Complete := List.foldlRecOn ops _ hcomplete fun _ h op _ => h.exec op
  exact ⟨s, hs, hrun, fun load => (hrun.updateWeightsRoutine load).imp fun t => And.left⟩

theorem placement_complete_two : let assignments : Slot ⟨2, 2, 2, 0⟩ → Expert ⟨2, 2, 2, 0⟩ := Prod.snd
    let ops := [.reconfigureMaskOnly [1], .updateWeights fun e => e]
    ∃ s, setInitialWeightAssignments assignments = .ok s ∧ (ops.foldl LayerState.exec s).Complete := by
  intro assignments ops
  obtain ⟨s, hs, hcomplete, -⟩ := placement_complete assignments (fun e => ⟨(0, e), rfl⟩) ops
  exact ⟨s, hs, hcomplete⟩

theorem deadRankMask_publish {t : LayerState m} (h : publish mask table counts = .ok t) : t.deadRankMask = mask := by
  simp only [publish, bind, Except.bind] at h
  split at h <;> cases h
  rfl

namespace LayerState

variable {s : LayerState m}

/-- No call takes a rank off the mask. -/
theorem deadRankMask_exec (op : Op m) {rank : Fin m.epSize} (hdead : s.deadRankMask rank = true) :
    (s.exec op).deadRankMask rank = true := by
  cases op with
  | updateWeights load =>
    rw [exec]
    cases h : s.updateWeightsRoutine load with
    | error e => exact hdead
    | ok t =>
      simp only [updateWeightsRoutine, bind, Except.bind] at h
      split at h
      · cases h
      split at h
      · cases h
      exact (congrFun (deadRankMask_publish h) rank).trans hdead
  | reconfigureMaskOnly deadRanks =>
    rw [exec]
    cases h : s.reconfigureMaskOnly deadRanks with
    | error e => exact hdead
    | ok t =>
      unfold LayerState.reconfigureMaskOnly at h
      extract_lets candidate table at h
      split_ifs at h
      exact (congrFun (deadRankMask_publish h) rank).trans (by simp [candidate, hdead])

end LayerState

/-- A rank that was masked once holds no slot of a published placement again, whatever updates and masks come. -/
theorem dead_rank_never_routed (assignments : Slot m → Expert m) (hall : ∀ e, ∃ slot, assignments slot = e)
    (ops later : List (LayerState.Op m)) : ∃ s, setInitialWeightAssignments assignments = .ok s ∧
      ∀ rank, (ops.foldl LayerState.exec s).deadRankMask rank = true → ∀ e,
        ∀ g ∈ (later.foldl LayerState.exec (ops.foldl LayerState.exec s)).gpuPlacement.segment e,
          ∃ slot, globalSlotId slot = g ∧ slot.1 ≠ rank := by
  obtain ⟨s, hs, hcomplete⟩ := publish_spec (fun _ => false)
    (show ∀ slot, (some (assignments slot)).isSome ↔ false = false by simp)
    (fun e => card_pos.2 ((hall e).imp fun slot h => by simp [h])) rfl
  refine ⟨s, hs, fun rank hdead e g hg => ?_⟩
  have hrun : (ops.foldl LayerState.exec s).Complete := List.foldlRecOn ops _ hcomplete fun _ h op _ => h.exec op
  obtain ⟨hlater, hmasked⟩ := List.foldlRecOn (motive := fun s : LayerState m => s.Complete ∧ s.deadRankMask rank = true) later _
    ⟨hrun, hdead⟩ fun _ h op _ => ⟨h.1.exec op, LayerState.deadRankMask_exec op h.2⟩
  obtain ⟨slot, hlive, -, hslot⟩ := (hlater.mem_segment e g).1 hg
  refine ⟨slot, hslot, ?_⟩
  rintro rfl
  exact absurd hmasked (Bool.eq_false_iff.1 hlive)

theorem dead_rank_never_routed_two : let assignments : Slot ⟨2, 2, 2, 0⟩ → Expert ⟨2, 2, 2, 0⟩ := Prod.snd
    ∃ s, setInitialWeightAssignments assignments = .ok s ∧
      ∀ e, ∀ g ∈ ((s.exec (.reconfigureMaskOnly [1])).exec (.updateWeights fun e => e)).gpuPlacement.segment e,
        ∃ slot : Slot ⟨2, 2, 2, 0⟩, globalSlotId slot = g ∧ slot.1 ≠ 1 := by
  intro assignments
  have hmasked : (setInitialWeightAssignments assignments).toOption.map
      (fun s => (s.exec (.reconfigureMaskOnly [1])).deadRankMask 1) = some true := by decide +kernel
  obtain ⟨s, hs, hdead⟩ := dead_rank_never_routed assignments (fun e => ⟨(0, e), rfl⟩) [.reconfigureMaskOnly [1]]
    [.updateWeights fun e => e]
  rw [hs] at hmasked
  exact ⟨s, hs, hdead 1 (Option.some.inj hmasked)⟩

end TrtLlm.Runtime
