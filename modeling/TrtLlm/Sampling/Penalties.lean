import Mathlib

/-!
# Penalties of the Vulkan sampler

`apply_penalties` in exact arithmetic. The loop runs over the list of sampled tokens, so a token that was sampled `c` times
is penalised `c` times, each time by its count in a table that is sized for the prompt.
-/

namespace TrtLlm.Sampling

open List

structure PenaltyConfig where
  repetitionPenaltyEnabled : Bool := false
  repetitionPenalty : ℚ := 1
  presencePenaltyEnabled : Bool := false
  presencePenalty : ℚ := 0
  frequencyPenaltyEnabled : Bool := false
  frequencyPenalty : ℚ := 0
  maxInputLength : ℤ := 0

/-- What the penalties of a slot read: the table of the penalty store and the tokens sampled so far. -/
structure Slot where
  presenceCounter : List ℕ
  outputTokenIds : List ℤ

/-- The step that `init_slot` and `add_token` share. -/
def countToken (presenceCounter : List ℕ) (tokenId : ℤ) : List ℕ :=
  if 0 ≤ tokenId ∧ tokenId < presenceCounter.length then presenceCounter.modify tokenId.toNat (· + 1) else presenceCounter

def initSlot (inputTokenIds : List ℤ) (maxInputLength : ℤ) : Slot where
  presenceCounter := inputTokenIds.foldl countToken (.replicate (if 0 < maxInputLength then maxInputLength.toNat else 1024) 0)
  outputTokenIds := []

def setupRequest (config : PenaltyConfig) (inputTokenIds : List ℤ) : Slot :=
  initSlot inputTokenIds (if 0 < config.maxInputLength then config.maxInputLength else inputTokenIds.length)

namespace Slot

/-- What `sample_token` records of the token that it returns. -/
def addToken (slot : Slot) (tokenId : ℤ) : Slot :=
  ⟨countToken slot.presenceCounter tokenId, slot.outputTokenIds ++ [tokenId]⟩

def getTokenCount (slot : Slot) (tokenId : ℤ) : ℕ :=
  if 0 ≤ tokenId ∧ tokenId < slot.presenceCounter.length then slot.presenceCounter.getD tokenId.toNat 0 else 0

end Slot

namespace PenaltyConfig

variable (config : PenaltyConfig)

/-- The body of the loop for one token of the vocabulary. -/
def penalize (count : ℕ) (logit : ℚ) : ℚ :=
  let logit := if config.repetitionPenaltyEnabled then logit * config.repetitionPenalty else logit
  let logit := if config.presencePenaltyEnabled then logit - config.presencePenalty else logit
  if config.frequencyPenaltyEnabled then logit - config.frequencyPenalty * count else logit

def applyPenalties (slot : Slot) (vocabSize : ℤ) (logits : ℤ → ℚ) : ℤ → ℚ :=
  if config.repetitionPenaltyEnabled || config.presencePenaltyEnabled || config.frequencyPenaltyEnabled then
    slot.outputTokenIds.foldl (fun logits tokenId =>
      if tokenId < 0 ∨ vocabSize ≤ tokenId then logits
      else Function.update logits tokenId (config.penalize (slot.getTokenCount tokenId) (logits tokenId))) logits
  else logits

/-- The penalties in effect: one that is not enabled is neutral. -/
def repetition : ℚ := if config.repetitionPenaltyEnabled then config.repetitionPenalty else 1

def presence : ℚ := if config.presencePenaltyEnabled then config.presencePenalty else 0

def frequency : ℚ := if config.frequencyPenaltyEnabled then config.frequencyPenalty else 0

theorem penalize_eq (count : ℕ) : config.penalize count =
    fun logit => logit * config.repetition - (config.presence + config.frequency * count) := by
  funext logit
  simp only [penalize, repetition, presence, frequency]
  split_ifs <;> ring

theorem applyPenalties_apply (slot : Slot) {vocabSize id : ℤ} (hid : id ∈ Set.Ico 0 vocabSize) (logits : ℤ → ℚ) :
    config.applyPenalties slot vocabSize logits id =
      (config.penalize (slot.getTokenCount id))^[slot.outputTokenIds.count id] (logits id) := by
  unfold applyPenalties
  split
  · generalize slot.outputTokenIds = ids
    induction ids generalizing logits with
    | nil => rfl
    | cons tokenId ids ih =>
      rw [foldl_cons, ih]
      by_cases hsame : tokenId = id
      · rw [hsame, if_neg (by simp [hid.1, hid.2]), Function.update_self, count_cons_self, Function.iterate_succ_apply]
      · rw [count_cons_of_ne hsame]
        split
        · rfl
        · rw [Function.update_of_ne (Ne.symm hsame)]
  · rename_i hoff
    simp only [Bool.or_eq_true, not_or] at hoff
    have hself : ∀ logit, config.penalize (slot.getTokenCount id) logit = logit := by simp [penalize, hoff]
    exact (Function.iterate_fixed (hself _) _).symm

def slotAfter (prompt sampled : List ℤ) : Slot := sampled.foldl Slot.addToken (setupRequest config prompt)

def tableSize (prompt : List ℤ) : ℕ :=
  let n : ℤ := if 0 < config.maxInputLength then config.maxInputLength else prompt.length
  if 0 < n then n.toNat else 1024

/-- What one round of the loop takes off a token, the repetition penalty apart. -/
def penaltyOf (prompt sampled : List ℤ) (id : ℤ) : ℚ :=
  config.presence + config.frequency * (if id < config.tableSize prompt then (prompt ++ sampled).count id else 0 : ℕ)

def penalised (prompt sampled : List ℤ) : ℤ → (ℤ → ℚ) → ℤ → ℚ := config.applyPenalties (config.slotAfter prompt sampled)

/-- The penalties are those of the counts of the sampled tokens. -/
structure CountsOnly (prompt sampled : List ℤ) (vocabSize : ℤ) (logits : ℤ → ℚ) : Prop where
  unsampled : ∀ id ∈ Set.Ico 0 vocabSize, id ∉ sampled →
    config.penalised prompt sampled vocabSize logits id = logits id
  le : ∀ id ∈ Set.Ico 0 vocabSize, config.penalised prompt sampled vocabSize logits id ≤ logits id
  lowered : config.repetition = 1 → ∀ id ∈ Set.Ico 0 vocabSize, id ∈ sampled → id ∉ prompt →
    config.penalised prompt sampled vocabSize logits id =
      logits id - (config.presence + sampled.count id * config.frequency)

variable {config} {prompt sampled : List ℤ} {vocabSize id : ℤ} {logits : ℤ → ℚ}

theorem foldl_countToken (ids : List ℤ) (table : List ℕ) : (ids.foldl countToken table).length = table.length ∧
    ∀ i < table.length, (ids.foldl countToken table).getD i 0 = table.getD i 0 + ids.count (i : ℤ) := by
  induction ids generalizing table with
  | nil => simp
  | cons id ids ih =>
    obtain ⟨hlen, hcount⟩ := ih (countToken table id)
    have hstep : (countToken table id).length = table.length ∧
        ∀ i < table.length, (countToken table id).getD i 0 = table.getD i 0 + if id = i then 1 else 0 := by
      unfold countToken
      split
      · rename_i hin
        obtain ⟨k, rfl⟩ := Int.eq_ofNat_of_zero_le hin.1
        refine ⟨length_modify .., fun i hi => ?_⟩
        by_cases hk : k = i <;> simp [hk, hi]
      · refine ⟨rfl, fun i hi => ?_⟩
        rw [if_neg (by omega), add_zero]
    refine ⟨hlen.trans hstep.1, fun i hi => ?_⟩
    rw [foldl_cons, hcount i (hstep.1 ▸ hi), hstep.2 i hi, count_cons, add_assoc, add_comm (ite ..)]
    simp

theorem slotAfter_eq : config.slotAfter prompt sampled =
    ⟨(prompt ++ sampled).foldl countToken (replicate (config.tableSize prompt) 0), sampled⟩ := by
  have hadd : ∀ slot : Slot, sampled.foldl Slot.addToken slot =
      ⟨sampled.foldl countToken slot.presenceCounter, slot.outputTokenIds ++ sampled⟩ := by
    induction sampled with
    | nil => simp
    | cons id sampled ih =>
      intro slot
      rw [foldl_cons, ih, Slot.addToken, append_assoc]
      rfl
  rw [slotAfter, hadd, foldl_append]
  rfl

theorem penalize_slotAfter (hid : 0 ≤ id) : config.penalize ((config.slotAfter prompt sampled).getTokenCount id) =
    fun logit => logit * config.repetition - config.penaltyOf prompt sampled id := by
  obtain ⟨i, rfl⟩ := Int.eq_ofNat_of_zero_le hid
  obtain ⟨hlen, hcount⟩ := foldl_countToken (prompt ++ sampled) (replicate (config.tableSize prompt) 0)
  rw [penalize_eq, slotAfter_eq, Slot.getTokenCount, penaltyOf]
  rw [hlen, length_replicate]
  by_cases hi : (i : ℤ) < config.tableSize prompt
  · rw [if_pos ⟨hid, hi⟩, if_pos hi, Int.toNat_natCast, hcount i (by simpa using hi), getD_replicate 0 (by simpa using hi),
      zero_add]
  · rw [if_neg (hi ·.2), if_neg hi]

theorem iterate_le_iff {r d x : ℚ} (hr : 1 ≤ r) (n : ℕ) :
    (fun x => x * r - d)^[n + 1] x ≤ x ↔ (r - 1) * x ≤ d := by
  have hmono : StrictMono fun x : ℚ => x * r - d := fun x y hxy => by
    have := mul_lt_mul_of_pos_right hxy (zero_lt_one.trans_le hr)
    linarith
  constructor
  · intro hle
    by_contra hlt
    have hup : x < x * r - d := by linarith
    exact (hmono.strictMono_iterate_of_lt_map hup n.succ_pos).not_ge hle
  · intro hle
    exact hmono.monotone.antitone_iterate_of_map_le (show x * r - d ≤ x by linarith) (Nat.zero_le (n + 1))

theorem iterate_sub (d x : ℚ) (n : ℕ) : (fun x => x * 1 - d)^[n] x = x - n * d := by
  induction n with
  | zero => simp
  | succ n ih =>
    rw [Function.iterate_succ_apply', ih]
    push_cast
    ring

/-- The penalties are those of the counts exactly if no sampled logit is so large that the repetition penalty outweighs
the rest, and the rounds of the loop take off what a token is to lose in all. -/
theorem countsOnly_iff (hrepetition : 1 ≤ config.repetition) (vocabSize : ℤ) (logits : ℤ → ℚ) :
    config.CountsOnly prompt sampled vocabSize logits ↔ ∀ id ∈ Set.Ico 0 vocabSize, id ∈ sampled →
      (config.repetition - 1) * logits id ≤ config.penaltyOf prompt sampled id ∧
      (config.repetition = 1 → id ∉ prompt → sampled.count id * config.penaltyOf prompt sampled id =
        config.presence + sampled.count id * config.frequency) := by
  have happly : ∀ id ∈ Set.Ico 0 vocabSize, config.penalised prompt sampled vocabSize logits id =
      (fun logit => logit * config.repetition - config.penaltyOf prompt sampled id)^[sampled.count id] (logits id) := by
    intro id hid
    rw [penalised, applyPenalties_apply _ _ hid, penalize_slotAfter hid.1, slotAfter_eq]
  constructor
  · intro h id hid hmem
    have hle := h.le id hid
    rw [happly id hid, ← Nat.succ_pred (count_pos_iff.2 hmem).ne', iterate_le_iff hrepetition] at hle
    refine ⟨hle, fun hone hprompt => ?_⟩
    have hlowered := h.lowered hone id hid hmem hprompt
    rw [happly id hid, hone, iterate_sub] at hlowered
    exact sub_right_injective hlowered
  · intro h
    have hunsampled : ∀ id ∈ Set.Ico 0 vocabSize, id ∉ sampled →
        config.penalised prompt sampled vocabSize logits id = logits id := by
      intro id hid hmem
      rw [happly id hid, count_eq_zero.2 hmem, Function.iterate_zero_apply]
    refine ⟨hunsampled, fun id hid => ?_, fun hone id hid hmem hprompt => ?_⟩
    · by_cases hmem : id ∈ sampled
      · rw [happly id hid, ← Nat.succ_pred (count_pos_iff.2 hmem).ne', iterate_le_iff hrepetition]
        exact (h id hid hmem).1
      · exact (hunsampled id hid hmem).le
    · rw [happly id hid, hone, iterate_sub, (h id hid hmem).2 hone hprompt]

/-- A token that was sampled once, with its id in the table. -/
theorem countsOnly_once : CountsOnly ⟨true, 1, true, 1, true, 1, 0⟩ [7, 7] [1] 8 fun _ => 0 := by
  refine (countsOnly_iff (by decide +kernel) 8 _).2 fun id _ hmem => ?_
  rw [mem_singleton.1 hmem]
  decide +kernel

/-- A token that was sampled twice pays the presence penalty twice, and twice the frequency penalty for two tokens. -/
theorem not_countsOnly_twice : ¬ CountsOnly ⟨false, 1, true, 1, true, 1, 0⟩ [7, 7] [1, 1] 8 fun _ => 0 := by
  intro h
  exact absurd (h.lowered rfl 1 (by decide) (by decide) (by decide)) (by decide +kernel)

end PenaltyConfig

end TrtLlm.Sampling
