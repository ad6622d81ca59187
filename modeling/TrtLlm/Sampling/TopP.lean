import Mathlib

/-!
# Nucleus sampling of the Vulkan sampler

`sample_token_cpu` and `sample_token_gpu` in exact arithmetic, for `top_p` below 1. Both add up the largest values until
`top_p` is reached, but on the CPU the values are not normalised: the first one is 1, and the loop ends there.
-/

namespace TrtLlm.Sampling

open List Real

/-- Values with their tokens, the largest first; where no two values are equal, the sort has one result. -/
noncomputable def tokenProbs (values : List ℝ) : List (ℝ × ℕ) := values.zipIdx.mergeSort fun a b => b.1 ≤ a.1

/-- The loop over the sorted tokens that stops once the sum has reached `topP`. -/
noncomputable def filteredProbs (topP sum : ℝ) : List (ℝ × ℕ) → List (ℝ × ℕ)
  | [] => []
  | entry :: rest => entry :: if topP ≤ sum + entry.1 then [] else filteredProbs topP (sum + entry.1) rest

/-- The loop that draws one of the filtered tokens; `r` is uniform between 0 and their total. -/
noncomputable def drawToken (r cumulative : ℝ) : List (ℝ × ℕ) → Option ℕ
  | [] => none
  | entry :: rest => if r ≤ cumulative + entry.1 then some entry.2 else drawToken r (cumulative + entry.1) rest

noncomputable def temper (temperature : ℝ) (logits : List ℝ) : List ℝ :=
  if 0 < temperature ∧ temperature ≠ 1 then logits.map (· / temperature) else logits

noncomputable def softmax (logits : List ℝ) : List ℝ := logits.map fun l => exp l / (logits.map exp).sum

/-- The tokens from which `sample_token_cpu` draws. -/
noncomputable def sampleTokenCpu (topP temperature : ℝ) (logits : List ℝ) : List (ℝ × ℕ) :=
  let probs := tokenProbs (temper temperature logits)
  let maxLogit := (probs.headD (0, 0)).1
  filteredProbs topP 0 (probs.map fun entry => (exp (entry.1 - maxLogit), entry.2))

/-- The tokens from which `sample_token_gpu` draws. Without its buffers it hands over logits that it has divided already. -/
noncomputable def sampleTokenGpu (allocated : Bool) (topP temperature : ℝ) (logits : List ℝ) : List (ℝ × ℕ) :=
  let logits := temper temperature logits
  if allocated then filteredProbs topP 0 (tokenProbs (softmax logits)) else sampleTokenCpu topP temperature logits

noncomputable def totalProb (entries : List (ℝ × ℕ)) : ℝ := (entries.map Prod.fst).sum

/-- Each token with its share of the total, which is the probability of drawing it. -/
noncomputable def law (entries : List (ℝ × ℕ)) : List (ℝ × ℕ) := entries.map fun entry => (entry.1 / totalProb entries, entry.2)

/-- The tokens are the shortest list of most probable ones that reaches `topP`, and drawn in proportion to their weights. -/
def SamplesNucleus (topP : ℝ) (logits : List ℝ) (entries : List (ℝ × ℕ)) : Prop :=
  let probs := tokenProbs (softmax logits)
  ∃ n, law entries = law (probs.take n) ∧ topP ≤ totalProb (probs.take n) ∧ ∀ k < n, totalProb (probs.take k) < topP

/-- Both paths and the fallback between them sample the nucleus of the tempered logits. -/
def SamplersAgree (topP temperature : ℝ) (logits : List ℝ) : Prop :=
  ∀ entries ∈ [sampleTokenCpu topP temperature logits, sampleTokenGpu true topP temperature logits,
    sampleTokenGpu false topP temperature logits], SamplesNucleus topP (temper temperature logits) entries

noncomputable def topToken (values : List ℝ) : ℕ := ((tokenProbs values).headD (0, 0)).2

variable {topP temperature sum : ℝ} {logits : List ℝ} {entries : List (ℝ × ℕ)}

@[simp] theorem totalProb_nil : totalProb [] = 0 := rfl

@[simp] theorem totalProb_cons (entry : ℝ × ℕ) : totalProb (entry :: entries) = entry.1 + totalProb entries := rfl

theorem filteredProbs_spec (hsum : sum < topP) (hreach : topP ≤ sum + totalProb entries) :
    ∃ n, filteredProbs topP sum entries = entries.take n ∧ topP ≤ sum + totalProb (entries.take n) ∧
      ∀ k < n, sum + totalProb (entries.take k) < topP := by
  induction entries generalizing sum with
  | nil =>
    rw [totalProb_nil, add_zero] at hreach
    exact absurd hreach hsum.not_ge
  | cons entry rest ih =>
    rw [filteredProbs]
    split
    · rename_i hdone
      refine ⟨1, rfl, by simpa using hdone, fun k hk => ?_⟩
      obtain rfl : k = 0 := by omega
      simpa using hsum
    · rename_i hmore
      rw [totalProb_cons, ← add_assoc] at hreach
      obtain ⟨n, hn, hle, hlt⟩ := ih (not_le.1 hmore) hreach
      refine ⟨n + 1, by rw [hn, take_succ_cons], by rwa [take_succ_cons, totalProb_cons, ← add_assoc], ?_⟩
      rintro (_ | k) hk
      · simpa using hsum
      · rw [take_succ_cons, totalProb_cons, ← add_assoc]
        exact hlt k (by omega)

/-- The draw ends where the filter would for the threshold `r`: at the token in whose share `r` lies. -/
theorem drawToken_eq {r : ℝ} (hreach : r ≤ sum + totalProb entries) :
    drawToken r sum entries = (filteredProbs r sum entries).getLast?.map Prod.snd := by
  induction entries generalizing sum with
  | nil => rfl
  | cons entry rest ih =>
    rw [totalProb_cons, ← add_assoc] at hreach
    rw [drawToken, filteredProbs, ih hreach]
    split
    · rfl
    · cases rest with
      | nil => exact absurd (by simpa using hreach) ‹_›
      | cons next rest => simp [filteredProbs]

theorem exists_tokenProbs {values : List ℝ} (hne : values ≠ []) : ∃ p rest,
    tokenProbs values = (p, topToken values) :: rest ∧ p ∈ values ∧ ∀ x ∈ values, x ≤ p := by
  have hperm : ((tokenProbs values).map Prod.fst).Perm values := by
    simpa [tokenProbs] using (mergeSort_perm values.zipIdx fun a b => decide (b.1 ≤ a.1)).map Prod.fst
  have hsorted : (tokenProbs values).Pairwise fun a b => decide (b.1 ≤ a.1) := by
    apply pairwise_mergeSort
    · simpa using fun a b c (hab : b ≤ a) (hbc : c ≤ b) => hbc.trans hab
    · simpa using fun a b => le_total b a
  cases htop : tokenProbs values with
  | nil => exact absurd (by simpa [htop] using hperm) hne
  | cons top rest =>
    rw [htop] at hperm hsorted
    refine ⟨top.1, rest, by rw [topToken, htop]; rfl, hperm.subset (by simp), fun x hx => ?_⟩
    rcases mem_cons.1 (hperm.symm.subset hx) with rfl | hx
    · exact le_rfl
    · obtain ⟨e, he, rfl⟩ := mem_map.1 hx
      exact of_decide_eq_true (rel_of_pairwise_cons hsorted he)

theorem topToken_map {f : ℝ → ℝ} (hf : StrictMono f) (values : List ℝ) : topToken (values.map f) = topToken values := by
  have hmap : tokenProbs (values.map f) = (tokenProbs values).map (Prod.map f id) := by
    rw [tokenProbs, tokenProbs, map_mergeSort (s := fun a b => decide (b.1 ≤ a.1)), zipIdx_map]
    simp [hf.le_iff_le]
  rw [topToken, topToken, hmap]
  cases tokenProbs values <;> rfl

theorem temper_spec (temperature : ℝ) (logits : List ℝ) :
    topToken (temper temperature logits) = topToken logits ∧ (temper temperature logits = [] ↔ logits = []) := by
  unfold temper
  split
  · rename_i h
    exact ⟨topToken_map (fun _ _ hlt => div_lt_div_of_pos_right hlt h.1) logits, map_eq_nil_iff⟩
  · exact ⟨rfl, .rfl⟩

theorem sampleTokenCpu_eq (hlt : topP < 1) (hne : logits ≠ []) :
    sampleTokenCpu topP temperature logits = [(1, topToken logits)] := by
  obtain ⟨htoken, hnil⟩ := temper_spec temperature logits
  obtain ⟨p, rest, htop, -⟩ := exists_tokenProbs (mt hnil.1 hne)
  simp [sampleTokenCpu, htop, filteredProbs, hlt.le, htoken]

section Softmax

variable (hpos : 0 < topP) (hne : logits ≠ [])

include hne

theorem sum_exp_pos : 0 < (logits.map exp).sum := sum_pos _ (by simp [exp_pos]) (by simpa using hne)

include hpos

/-- The most probable token alone is the nucleus if some token reaches `topP` alone. -/
theorem samplesNucleus_topToken_iff : SamplesNucleus topP logits [(1, topToken logits)] ↔ ∃ p ∈ softmax logits, topP ≤ p := by
  have htoken : topToken (softmax logits) = topToken logits :=
    topToken_map (fun _ _ h => div_lt_div_of_pos_right (exp_lt_exp.2 h) (sum_exp_pos hne)) logits
  obtain ⟨p, rest, htop, hmem, hmax⟩ := exists_tokenProbs (show softmax logits ≠ [] by simpa [softmax] using hne)
  rw [SamplesNucleus, htop, htoken]
  constructor
  · rintro ⟨_ | n, hlaw, hle, -⟩
    · simp [law] at hlaw
    · have hrest : rest.take n = [] := by simpa [law] using congrArg length hlaw
      exact ⟨p, hmem, by simpa [hrest] using hle⟩
  · rintro ⟨q, hq, hle⟩
    replace hle := hle.trans (hmax q hq)
    refine ⟨1, by simp [law, (hpos.trans_le hle).ne'], by simpa using hle, fun k hk => ?_⟩
    obtain rfl : k = 0 := by omega
    exact hpos

theorem samplesNucleus_filteredProbs (hlt : topP < 1) :
    SamplesNucleus topP logits (filteredProbs topP 0 (tokenProbs (softmax logits))) := by
  have htotal : totalProb (tokenProbs (softmax logits)) = 1 := by
    have hsum := ((mergeSort_perm (softmax logits).zipIdx fun a b => decide (b.1 ≤ a.1)).map Prod.fst).sum_eq
    refine hsum.trans ?_
    simp only [zipIdx_map_fst, softmax, div_eq_mul_inv, sum_map_mul_right]
    exact mul_inv_cancel₀ (sum_exp_pos hne).ne'
  obtain ⟨n, hn, hspec⟩ := filteredProbs_spec hpos (by linarith)
  exact ⟨n, by rw [hn], by simpa using hspec⟩

/-- The samplers agree if the CPU's one candidate is the nucleus. -/
theorem samplersAgree_iff (hlt : topP < 1) :
    SamplersAgree topP temperature logits ↔ ∃ p ∈ softmax (temper temperature logits), topP ≤ p := by
  obtain ⟨htoken, hnil⟩ := temper_spec temperature logits
  have hne' := mt hnil.1 hne
  rw [← samplesNucleus_topToken_iff hpos hne']
  simp [SamplersAgree, sampleTokenGpu, sampleTokenCpu_eq hlt hne, sampleTokenCpu_eq hlt hne', htoken,
    samplesNucleus_filteredProbs hpos hne' hlt]

end Softmax

theorem samplersAgree_half : SamplersAgree (1 / 2) 1 [0, log 2] := by
  refine (samplersAgree_iff (by norm_num) (by simp) (by norm_num)).2 ⟨2 / 3, ?_, by norm_num⟩
  norm_num [temper, softmax, exp_log]

/-- Weights 1 and 2: the larger one is two thirds of the sum. -/
theorem not_samplersAgree_large : ¬ SamplersAgree (9 / 10) 1 [0, log 2] := by
  intro h
  have hcpu := h _ (.head _)
  rw [sampleTokenCpu_eq (by norm_num) (by simp), ← (temper_spec 1 _).1,
    samplesNucleus_topToken_iff (by norm_num) (by simp [temper])] at hcpu
  norm_num [temper, softmax, exp_log] at hcpu

end TrtLlm.Sampling
