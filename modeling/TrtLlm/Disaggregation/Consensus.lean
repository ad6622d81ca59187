import Mathlib
import TrtLlm.Lib.Dict

/-!
# Agreement of the ranks on transfer outcomes

`check_context_transfer_status` and `check_gen_transfer_status` with a request count: every rank scans its sessions, the
ranks agree on the requests to process, every rank looks at those again, and the ranks agree on the outcomes. The two
looks are arbitrary, and the model computes all ranks at once.
-/

namespace TrtLlm.Disaggregation

open List

/-- The sizes that `_init_sync_policy` reads; one context-parallel rank. -/
structure Mapping where
  tpSize : ℕ
  ppSize : ℕ
  enableAttentionDp : Bool

namespace Mapping

variable (m : Mapping)

def Rank : Type := Fin m.tpSize × Fin m.ppSize

def worldSize : ℕ := m.tpSize * m.ppSize

def ctxNeedTpSync : Bool := decide (m.tpSize > 1) && !m.enableAttentionDp

def ctxNeedPpSync : Bool := decide (m.ppSize > 1)

def genNeedSync : Bool := !(decide (m.worldSize = 1) || m.enableAttentionDp && decide (m.ppSize = 1))

variable {m} {α : Type*} (v : m.Rank → α) (r : m.Rank)

def tpAllgather : List α := (List.finRange m.tpSize).map fun tp => v (tp, r.2)

def ppAllgather : List α := (List.finRange m.ppSize).map fun pp => v (r.1, pp)

def allgather : List α := (List.finRange m.ppSize).flatMap fun pp => (List.finRange m.tpSize).map fun tp => v (tp, pp)

def ctxTpLists : List α := if m.ctxNeedTpSync then tpAllgather v r else [v r]

def genAllgather : List α := if m.enableAttentionDp then ppAllgather v r else allgather v

def genLists : List α := if m.genNeedSync then genAllgather v r else [v r]

/-- The ranks hold the same requests: under attention DP those of one tensor-parallel index, else all. -/
def Together (r s : m.Rank) : Prop := m.enableAttentionDp = true → r.1 = s.1

end Mapping

def findConsensusRequestIds (requestIdsAllRanks : List (List ℕ)) (syncSize : ℕ) : List ℕ :=
  let frequency : Dict ℕ ℕ := requestIdsAllRanks.flatten.foldl (fun d rid => d.upsert rid fun n => n.getD 0 + 1) ∅
  ((frequency.entries.insertionSort fun x y => x.2 ≥ y.2).takeWhile fun entry => entry.2 = syncSize).map Prod.fst

/-- What `is_completed` and `has_failed` say of a session in the first look. -/
structure SessionPoll where
  isCompleted : Bool
  hasFailed : Bool

def collectDone (sessions : Dict ℕ SessionPoll) : List ℕ × List ℕ :=
  ((sessions.entries.filter fun e => e.2.isCompleted).map Prod.fst,
    (sessions.entries.filter fun e => !e.2.isCompleted && e.2.hasFailed).map Prod.fst)

/-- Without `block_all`. -/
def buildToProcess (sessions : Dict ℕ SessionPoll) (consensus : List ℕ) (waitNum : ℤ) : List ℕ :=
  sessions.keys.foldl
    (fun toProcess rid =>
      if waitNum ≤ toProcess.length then toProcess else if rid ∈ toProcess then toProcess else toProcess ++ [rid])
    consensus

inductive WaitResult where
  | cancelled | completed | none | timeout | failed
deriving DecidableEq

structure Outcome where
  cancelled : List ℕ
  failed : List ℕ
  completed : List ℕ

def localOutcome (toProcess : List ℕ) (look : ℕ → WaitResult) : Outcome :=
  ⟨toProcess.filter (look · = .cancelled), toProcess.filter (look · = .failed), toProcess.filter (look · = .completed)⟩

def intersection (allLists : List (List ℕ)) (nRanks rid : ℕ) : Bool :=
  decide (nRanks ≠ 0) && decide (allLists.countP (rid ∈ ·) = nRanks)

def consensusOutcome (toProcess : List ℕ) (packed : List Outcome) : Outcome :=
  let newCancelled := toProcess.filter (· ∈ packed.flatMap (·.cancelled))
  let newFailed := toProcess.filter fun rid => rid ∈ packed.flatMap (·.failed) ∧ rid ∉ newCancelled
  ⟨newCancelled, newFailed, toProcess.filter fun rid =>
    intersection (packed.map (·.completed)) packed.length rid ∧ rid ∉ newCancelled ∧ rid ∉ newFailed⟩

inductive TransferSide where
  | context | generation

section Code

variable {m : Mapping} {α β : Type*}

def tpThenPp (tpStep ppStep : m.Rank → List α → α) (v : m.Rank → α) (r : m.Rank) : α :=
  let mid (r : m.Rank) := tpStep r (Mapping.ctxTpLists v r)
  if m.ctxNeedPpSync then ppStep r (Mapping.ppAllgather mid r) else mid r

def ctxConsensus (localIds : m.Rank → List ℕ) : m.Rank → List ℕ :=
  tpThenPp (fun _ ids => findConsensusRequestIds ids (if m.ctxNeedTpSync then m.tpSize else 1))
    (fun _ ids => findConsensusRequestIds ids m.ppSize) localIds

def genConsensus (localIds : m.Rank → List ℕ) (r : m.Rank) : List ℕ :=
  findConsensusRequestIds (Mapping.genLists localIds r) (if m.enableAttentionDp then m.ppSize else m.worldSize)

def toProcess (side : TransferSide) (atLeastRequestNum : ℤ) (sessions : m.Rank → Dict ℕ SessionPoll) (r : m.Rank) :
    List ℕ :=
  let localIds (r : m.Rank) := (collectDone (sessions r)).1 ++ (collectDone (sessions r)).2
  let consensus := match side with
    | .context => ctxConsensus localIds r
    | .generation => genConsensus localIds r
  buildToProcess (sessions r) consensus (if atLeastRequestNum > 0 then 0 else atLeastRequestNum)

/-- The sets that a rank computes; `look` is the second look, of every rank. -/
def checkTransferStatus (side : TransferSide) (atLeastRequestNum : ℤ) (sessions : m.Rank → Dict ℕ SessionPoll)
    (look : m.Rank → ℕ → WaitResult) (r : m.Rank) : Outcome :=
  let toProcess := toProcess side atLeastRequestNum sessions
  let own (r : m.Rank) := localOutcome (toProcess r) (look r)
  match side with
  | .context => tpThenPp (fun r => consensusOutcome (toProcess r)) (fun r => consensusOutcome (toProcess r)) own r
  | .generation => consensusOutcome (toProcess r) (Mapping.genLists own r)

end Code

namespace Mapping

variable {m : Mapping} {α : Type*} {r s : m.Rank}

theorem pp_eq_of_not_sync (hsync : m.ctxNeedPpSync = false) : r.2 = s.2 := by
  have hle : m.ppSize ≤ 1 := by simpa [ctxNeedPpSync] using hsync
  exact (Fin.subsingleton_iff_le_one.2 hle).elim _ _

theorem tp_eq_of_not_sync (hsync : m.ctxNeedTpSync = false) (htogether : Together r s) : r.1 = s.1 := by
  cases hdp : m.enableAttentionDp with
  | true => exact htogether hdp
  | false =>
    have hle : m.tpSize ≤ 1 := by simpa [ctxNeedTpSync, hdp] using hsync
    exact (Fin.subsingleton_iff_le_one.2 hle).elim _ _

theorem eq_of_gen_not_sync (hsync : m.genNeedSync = false) (htogether : Together r s) : r = s := by
  rw [genNeedSync, Bool.not_eq_false', Bool.or_eq_true, Bool.and_eq_true, decide_eq_true_iff, decide_eq_true_iff,
    worldSize, mul_eq_one] at hsync
  have hpp : m.ctxNeedPpSync = false := by simp [ctxNeedPpSync, hsync.elim And.right And.right]
  have htp : m.ctxNeedTpSync = false := by rcases hsync with h | h <;> simp [ctxNeedTpSync, h.1]
  exact Prod.ext (tp_eq_of_not_sync htp htogether) (pp_eq_of_not_sync hpp)

variable (htogether : Together r s)

include htogether

theorem ctxTpLists_congr (pp : Fin m.ppSize) (v : m.Rank → α) : ctxTpLists v (r.1, pp) = ctxTpLists v (s.1, pp) := by
  unfold ctxTpLists
  split
  · rfl
  · rename_i hsync
    rw [tp_eq_of_not_sync (by simpa using hsync) htogether]

theorem genLists_congr (v : m.Rank → α) : genLists v r = genLists v s := by
  unfold genLists genAllgather
  split
  · split
    · rename_i hdp
      rw [ppAllgather, htogether hdp]
      rfl
    · rfl
  · rename_i hsync
    rw [eq_of_gen_not_sync (by simpa using hsync) htogether]

theorem mem_genLists (v : m.Rank → α) : v s ∈ genLists v r := by
  rw [genLists_congr htogether]
  unfold genLists genAllgather
  split
  · split
    · exact mem_map.2 ⟨s.2, mem_finRange _, rfl⟩
    · exact mem_flatMap.2 ⟨s.2, mem_finRange _, mem_map.2 ⟨s.1, mem_finRange _, rfl⟩⟩
  · exact mem_singleton_self _

end Mapping

section Agreement

variable {m : Mapping} {r s : m.Rank} {side : TransferSide} {n : ℤ} {sessions : m.Rank → Dict ℕ SessionPoll}

open Mapping

theorem tpThenPp_congr {α : Type*} {tpStep ppStep : m.Rank → List α → α} (htogether : Together r s)
    (htp : ∀ r s, Together r s → tpStep r = tpStep s) (hpp : ppStep r = ppStep s) (v : m.Rank → α) :
    tpThenPp tpStep ppStep v r = tpThenPp tpStep ppStep v s := by
  have hmid : ∀ pp, tpStep (r.1, pp) (ctxTpLists v (r.1, pp)) = tpStep (s.1, pp) (ctxTpLists v (s.1, pp)) := by
    intro pp
    rw [htp (r.1, pp) (s.1, pp) htogether, ctxTpLists_congr htogether]
  unfold tpThenPp
  split
  · simp only [ppAllgather, hmid, hpp]
  · rename_i hsync
    have hr := hmid r.2
    rwa [show (s.1, r.2) = s from Prod.ext rfl (pp_eq_of_not_sync (by simpa using hsync))] at hr

theorem buildToProcess_eq (sessions : Dict ℕ SessionPoll) (consensus : List ℕ) :
    buildToProcess sessions consensus (if n > 0 then 0 else n) = consensus := by
  have hle : ∀ ids : List ℕ, (if n > 0 then 0 else n) ≤ (ids.length : ℤ) := by
    split <;> omega
  unfold buildToProcess
  induction sessions.keys with
  | nil => rfl
  | cons rid rest ih => rw [foldl_cons, if_pos (hle consensus), ih]

theorem toProcess_congr (htogether : Together r s) : toProcess side n sessions r = toProcess side n sessions s := by
  unfold toProcess
  rw [buildToProcess_eq, buildToProcess_eq]
  cases side with
  | context => exact tpThenPp_congr htogether (fun _ _ _ => rfl) rfl _
  | generation => exact congrArg (findConsensusRequestIds · _) (genLists_congr htogether _)

theorem mem_consensusOutcome_completed {toProcess : List ℕ} {packed : List Outcome} {rid : ℕ} :
    rid ∈ (consensusOutcome toProcess packed).completed ↔
      rid ∈ toProcess ∧ intersection (packed.map (·.completed)) packed.length rid ∧
        rid ∉ (consensusOutcome toProcess packed).cancelled ∧ rid ∉ (consensusOutcome toProcess packed).failed :=
  mem_filter.trans (and_congr_right fun _ => decide_eq_true_iff)

theorem mem_completed_of_consensus {toProcess : List ℕ} {packed : List Outcome} {rid : ℕ}
    (hrid : rid ∈ (consensusOutcome toProcess packed).completed) : ∀ o ∈ packed, rid ∈ o.completed := by
  have hcount : (packed.map (·.completed)).countP (rid ∈ ·) = (packed.map (·.completed)).length := by
    have hall := (mem_consensusOutcome_completed.1 hrid).2.1
    simp only [intersection, Bool.and_eq_true, decide_eq_true_eq] at hall
    rw [hall.2, length_map]
  intro o ho
  simpa using countP_eq_length.1 hcount _ (mem_map_of_mem ho)

def Outcome.Disjoint (o : Outcome) : Prop :=
  o.cancelled.Disjoint o.failed ∧ o.cancelled.Disjoint o.completed ∧ o.failed.Disjoint o.completed

theorem disjoint_consensusOutcome (toProcess : List ℕ) (packed : List Outcome) :
    (consensusOutcome toProcess packed).Disjoint := by
  refine ⟨fun rid hc hf => ?_, fun rid hc hd => ?_, fun rid hf hd => ?_⟩
  · exact (of_decide_eq_true (mem_filter.1 hf).2).2 hc
  · exact (mem_consensusOutcome_completed.1 hd).2.2.1 hc
  · exact (mem_consensusOutcome_completed.1 hd).2.2.2 hf

/-- The ranks agree on three disjoint lists, and a request counts as completed only if it is on every rank. -/
theorem transferStatus_agrees (side : TransferSide) (n : ℤ) (sessions : m.Rank → Dict ℕ SessionPoll)
    (look : m.Rank → ℕ → WaitResult) (r : m.Rank) : let check := checkTransferStatus side n sessions look
    (∀ s, Together r s → check s = check r) ∧ (check r).Disjoint ∧
      (∀ rid ∈ (check r).completed, ∀ s, Together r s → look s rid = .completed) ∧
      ∀ rid ∈ toProcess side n sessions r, ∀ s, Together r s → look s rid = .failed ∨ look s rid = .cancelled →
        ∀ t, Together r t → rid ∉ (check t).completed := by
  intro check
  have hagree : ∀ s, Together r s → check s = check r := by
    intro s htogether
    symm
    cases side with
    | context =>
      apply tpThenPp_congr htogether
      · intro r s htogether
        exact congrArg consensusOutcome (toProcess_congr htogether)
      · exact congrArg consensusOutcome (toProcess_congr htogether)
    | generation =>
      show consensusOutcome _ _ = consensusOutcome _ _
      rw [toProcess_congr htogether, genLists_congr htogether]
  have hlook : ∀ s rid, rid ∈ (localOutcome (toProcess side n sessions s) (look s)).completed → look s rid = .completed := by
    intro s rid hrid
    simpa using (mem_filter.1 hrid).2
  have hcompleted : ∀ rid ∈ (check r).completed, ∀ s, Together r s → look s rid = .completed := by
    intro rid hrid s htogether
    apply hlook
    cases side with
    | context =>
      -- a stage's list of completed requests is within that of each of its ranks
      have hstage : rid ∈ (consensusOutcome (toProcess .context n sessions (r.1, s.2))
          (ctxTpLists (fun r => localOutcome (toProcess .context n sessions r) (look r)) (r.1, s.2))).completed := by
        simp only [check, checkTransferStatus, tpThenPp] at hrid
        split at hrid
        · exact mem_completed_of_consensus hrid _ (mem_map.2 ⟨s.2, mem_finRange _, rfl⟩)
        · rename_i hsync
          rwa [show (r.1, s.2) = r from Prod.ext rfl (pp_eq_of_not_sync (by simpa using hsync))]
      refine mem_completed_of_consensus hstage _ ?_
      rw [ctxTpLists_congr htogether]
      unfold ctxTpLists
      split
      · exact mem_map.2 ⟨s.1, mem_finRange _, rfl⟩
      · exact mem_singleton_self _
    | generation => exact mem_completed_of_consensus hrid _ (mem_genLists htogether _)
  refine ⟨hagree, ?_, hcompleted, ?_⟩
  · cases side with
    | context =>
      simp only [check, checkTransferStatus, tpThenPp]
      split
      · exact disjoint_consensusOutcome _ _
      · exact disjoint_consensusOutcome _ _
    | generation => exact disjoint_consensusOutcome _ _
  · intro rid hprocess s htogether hresult t ht hmem
    rw [hagree t ht] at hmem
    rw [hcompleted rid hmem s htogether] at hresult
    simp at hresult

/-- Two ranks: both requests are done at the first look, one of them has failed on the second rank. -/
theorem transferStatus_agrees_two : let m : Mapping := ⟨2, 1, false⟩
    let sessions (_ : m.Rank) : Dict ℕ SessionPoll := .ofList [(5, ⟨true, false⟩), (6, ⟨true, false⟩)]
    let look (r : m.Rank) (rid : ℕ) : WaitResult := if r.1 = 1 ∧ rid = 6 then .failed else .completed
    let check := checkTransferStatus .context 1 sessions look
    (check (0, 0)).completed = [5] ∧ (check (0, 0)).failed = [6] ∧ check (1, 0) = check (0, 0) :=
  ⟨by decide, by decide, (transferStatus_agrees _ _ _ _ _).1 _ nofun⟩

end Agreement

end TrtLlm.Disaggregation
