import TrtLlm.LlmApi.ThinkTags

/-!
# When cuts make no difference

The texts on which all cuts agree, for each of the two parsers for `<think>` tags.
-/

namespace TrtLlm.LlmApi

open TextSearch ReasoningParserResult ThinkParser

open List hiding tail

namespace DeepSeekR1

theorem emitted_content (buffer : Text) {deltas : List Text} (hstart : ¬ reasoningStart <:+: buffer ++ deltas.flatten)
    (hend : ∀ u, buffer ++ deltas.flatten = u ++ reasoningEnd → u ≠ [] ∧ deepSeekR1.Waits u) :
    deepSeekR1.emitted ⟨false, buffer⟩ deltas = inBlock false (buffer ++ deltas.flatten) := by
  induction deltas generalizing buffer with
  | nil =>
    rw [flatten_nil, append_nil] at hstart hend ⊢
    exact finish_eq (fun h => hstart (h ▸ infix_rfl)) fun h => (hend [] h).1 rfl
  | cons delta deltas ih =>
    rw [flatten_cons, ← append_assoc] at hstart hend ⊢
    by_cases hdelta : deepSeekR1.Waits (buffer ++ delta)
    · rw [emitted_waits hdelta, ih _ hstart hend]
    rw [emitted_flush hdelta fun h => hstart (h.trans (prefix_append _ _).isInfix)]
    have hrest := ih [] (fun h => hstart (h.trans (suffix_append _ _).isInfix)) ?_
    · exact congrArg _ hrest
    · -- text has been flushed before the tag, so the tag cannot be preceded by the beginning of one
      intro u hu
      have hwaits := (hend (buffer ++ delta ++ u) (by rw [append_assoc _ u, ← hu]; simp)).2
      exact absurd (hwaits.of_prefix (prefix_append _ _)) hdelta

theorem emitted_quiet (deltas : List Text) (h : Quiet deltas.flatten) :
    deepSeekR1.emitted ⟨false, []⟩ deltas = inBlock false deltas.flatten := by
  exact emitted_content [] h.1 fun u hu => absurd ⟨u, hu.symm⟩ h.2

theorem emitted_cons_content {delta : Text} {deltas : List Text} (hwaits : ¬ deepSeekR1.Waits delta)
    (hstart : ¬ reasoningStart <:+: delta) : deepSeekR1.emitted ⟨false, []⟩ (delta :: deltas) =
      inBlock false delta ++ deepSeekR1.emitted ⟨false, []⟩ deltas :=
  emitted_flush_cons hwaits hstart

theorem agree_content {text : Text} (hwaits : ¬ deepSeekR1.Waits text) (hstart : ¬ reasoningStart <:+: text) :
    deepSeekR1.Agree false text ↔ ∀ u, text = u ++ reasoningEnd → deepSeekR1.Waits u := by
  constructor
  · rintro h u rfl
    by_contra hu
    have hstart' : ¬ reasoningStart <:+: u := fun hin => hstart (hin.trans (prefix_append _ _).isInfix)
    have heq := h [u ++ reasoningEnd] [u, reasoningEnd] (by simp) (by simp)
    rw [emitted_cons_content hwaits hstart, emitted_cons_content hu hstart', emitted_reasoningEnd] at heq
    have hcontent := congrArg ReasoningParserResult.content heq
    exact absurd (by simpa [inBlock, finish] using hcontent) (show reasoningEnd ≠ [] by decide)
  · rintro h deltas deltas' rfl htext'
    have hend : ∀ u, deltas.flatten = u ++ reasoningEnd → u ≠ [] ∧ deepSeekR1.Waits u := by
      refine fun u hu => ⟨?_, h u hu⟩
      rintro rfl
      exact hwaits (hu ▸ waits_of_isPrefix (end_mem_tokens deepSeekR1.end_mem) prefix_rfl)
    have hone := emitted_content [] hstart hend
    have hone' := emitted_content [] (htext' ▸ hstart) (htext' ▸ hend)
    exact hone.trans ((congrArg (inBlock false) htext'.symm).trans hone'.symm)

/-- After a tag has been cut behind its `<`, the rest of a text can be cut so that all of it is content. -/
theorem exists_all_content (text : Text) : ∃ deltas, flatten deltas = reasoningStart.tail ++ text ∧
    deepSeekR1.emitted ⟨false, []⟩ deltas = inBlock false (reasoningStart.tail ++ text) := by
  induction hn : text.length using Nat.strong_induction_on generalizing text with
  | _ n ih =>
    subst hn
    have hwaits : ∀ x, ¬ deepSeekR1.Waits (reasoningStart.tail ++ x) := fun x => not_waits_cons (by decide) _
    have htail : ∀ x, ¬ reasoningStart <:+: x → ¬ reasoningStart <:+: reasoningStart.tail ++ x := fun x hx hin =>
      hx (marked_reasoningStart.infix_of_notMem (by decide) hin)
    by_cases hin : reasoningStart <:+: text
    · -- the next tag is cut behind its `<`, too
      obtain ⟨a, b, rfl, ha⟩ := exists_first (by decide) hin
      obtain ⟨deltas, hflat, heq⟩ := ih b.length (by simp [reasoningStart]; omega) b rfl
      refine ⟨(reasoningStart.tail ++ (a ++ ['<'])) :: deltas, ?_, ?_⟩
      · rw [flatten_cons, hflat]
        simp [reasoningStart]
      · rw [emitted_cons_content (hwaits _) (htail _ (not_start_mark ha)), heq, ← inBlock_append]
        simp [reasoningStart]
    · refine ⟨[reasoningStart.tail ++ text], by simp, ?_⟩
      rw [emitted_cons_content (hwaits _) (htail text hin)]
      simp [finish, inBlock]

theorem not_agree_late_start {u text : Text} (hu : u ≠ []) (hstart : ¬ reasoningStart <:+: u) :
    ¬ deepSeekR1.Agree false (u ++ (reasoningStart ++ text)) := by
  intro h
  obtain ⟨deltas, hflat, heq⟩ := exists_all_content text
  have hall := h [u ++ (reasoningStart ++ text)] ((u ++ ['<']) :: deltas) (by simp)
    (by rw [flatten_cons, hflat]; simp [reasoningStart])
  rw [emitted_skip_cons hu hstart, emitted_cons_content (not_waits_mark hu) (not_start_mark hstart), heq] at hall
  have hle := content_think_le (p := deepSeekR1) text
  rw [hall] at hle
  simp [inBlock] at hle
  omega

def ContentOk (text : Text) : Prop := ∀ u, text = u ++ reasoningEnd → deepSeekR1.Waits u

/-- Text after the opening of a reasoning block that is read in one way. -/
def BodyOk (reasoningAtStart : Bool) (text : Text) : Prop :=
  (¬ reasoningEnd <:+: text → ¬ reasoningStart <:+ text) ∧
    ∀ a b, text = a ++ (reasoningEnd ++ b) → ¬ reasoningEnd <:+: a → Quiet (later (opening reasoningAtStart ++ a) b)

theorem firstEnd_reasoningEnd {a : Text} (h : ¬ reasoningEnd <:+: a) : deepSeekR1.FirstEnd a reasoningEnd :=
  ⟨deepSeekR1.end_mem, by simpa [deepSeekR1] using h⟩

theorem agree_body {m : Bool} {text : Text} (hwaits : ¬ deepSeekR1.Waits (opening m ++ text)) :
    deepSeekR1.Agree m (opening m ++ text) ↔ BodyOk m text := by
  by_cases hend : reasoningEnd <:+: text
  · obtain ⟨a, b, rfl, ha⟩ := exists_first (by decide) hend
    have hfirst := firstEnd_reasoningEnd ha
    rw [agree_firstEnd hfirst hwaits fun _ => by decide,
      tailAgree_iff (x := []) (fun _ => rfl) (hfirst.ne_nil hwaits) emitted_quiet]
    refine ⟨fun h => ⟨absurd hend, fun a' b' heq ha' => ?_⟩, fun h => h.2 a b rfl ha⟩
    obtain ⟨rfl, -, rfl⟩ := hfirst.unique (firstEnd_reasoningEnd ha') heq
    exact h
  · have hnone : deepSeekR1.NoEnd text := by simpa [NoEnd, deepSeekR1] using hend
    rw [agree_no_end hwaits hnone]
    refine ⟨fun h => ⟨fun _ => h, fun a b heq _ => absurd ⟨a, b, ?_⟩ hend⟩, fun h => h.1 hend⟩
    rw [heq, append_assoc]

theorem agree_iff (m : Bool) (text : Text) : deepSeekR1.Agree m text ↔ deepSeekR1.CutInvariant ContentOk BodyOk m text :=
  agree_iff_cutInvariant (fun _ => agree_content) (fun _ _ => not_agree_late_start) (fun _ _ => agree_body) m text

end DeepSeekR1

namespace KimiK2

def withoutEnd (text : Text) : Text :=
  if reasoningEnd <:+ text then text.take (text.length - reasoningEnd.length) else text

theorem withoutEnd_append (text : Text) : withoutEnd (text ++ reasoningEnd) = text := by
  simp [withoutEnd]

variable {text b lead : Text}

theorem withoutEnd_of_not_suffix (h : ¬ reasoningEnd <:+ text) : withoutEnd text = text := if_neg h

theorem withoutEnd_withhold (text more : Text) :
    (withhold '<' tokens text).1 ++ withoutEnd ((withhold '<' tokens text).2 ++ more) = withoutEnd (text ++ more) := by
  have hsplit : (withhold '<' tokens text).1 ++ ((withhold '<' tokens text).2 ++ more) = text ++ more := by
    rw [← append_assoc, withhold_eq]
  by_cases h : reasoningEnd <:+ text ++ more
  · obtain ⟨y, hy⟩ := suffix_withhold (show reasoningEnd ∈ tokens by decide) marked_reasoningEnd h
    rw [← hsplit, ← hy, withoutEnd_append, ← append_assoc, withoutEnd_append]
  · rw [withoutEnd_of_not_suffix h, withoutEnd_of_not_suffix fun hs => h (hs.trans ⟨_, hsplit⟩), hsplit]

theorem waits_held (text : Text) : kimiK2.Waits (withhold '<' tokens text).2 := waits_withhold (Subset.refl tokens) text

/-- In content, the only text ever lost is an end tag at the end. -/
theorem emitted_content (buffer : Text) {deltas : List Text} (hbuffer : kimiK2.Waits buffer)
    (hstart : ¬ reasoningStart <:+: buffer ++ deltas.flatten) :
    kimiK2.emitted ⟨false, buffer⟩ deltas = inBlock false (withoutEnd (buffer ++ deltas.flatten)) := by
  induction deltas generalizing buffer with
  | nil =>
    rw [flatten_nil, append_nil] at hstart ⊢
    by_cases hend : buffer = reasoningEnd
    · subst hend
      decide
    have hsuffix : ¬ reasoningEnd <:+ buffer := by
      rintro ⟨x, rfl⟩
      refine hend ?_
      have hnil : x = [] := by
        by_contra hx
        exact not_waits_append hx marked_reasoningEnd [] hbuffer
      rw [hnil, nil_append]
    rw [withoutEnd_of_not_suffix hsuffix]
    exact finish_eq (fun h => hstart (h ▸ infix_rfl)) hend
  | cons delta deltas ih =>
    rw [flatten_cons, ← append_assoc] at hstart ⊢
    by_cases hdelta : kimiK2.Waits (buffer ++ delta)
    · rw [emitted_waits hdelta, ih _ hdelta hstart]
    have hrest := withhold_suffix '<' tokens (buffer ++ delta) deltas.flatten
    rw [emitted_flush hdelta fun h => hstart (h.trans (prefix_append _ _).isInfix)]
    change inBlock false (withhold '<' tokens _).1 ++ kimiK2.emitted ⟨false, (withhold '<' tokens _).2⟩ deltas = _
    rw [ih _ (waits_held _) fun h => hstart (h.trans hrest.isInfix), ← inBlock_append, withoutEnd_withhold]

theorem agree_content (hstart : ¬ reasoningStart <:+: text) : kimiK2.Agree false text := by
  rintro deltas deltas' rfl htext'
  have hone := emitted_content [] waits_nil hstart
  have hone' := emitted_content [] waits_nil (htext' ▸ hstart)
  exact hone.trans ((congrArg (fun text => inBlock false (withoutEnd text)) htext'.symm).trans hone'.symm)

theorem emitted_quiet (deltas : List Text) (h : Quiet deltas.flatten) :
    kimiK2.emitted ⟨false, []⟩ deltas = inBlock false deltas.flatten := by
  have hone := emitted_content [] waits_nil h.1
  rwa [nil_append, withoutEnd_of_not_suffix h.2] at hone

theorem withhold_mark (text : Text) : withhold '<' tokens (text ++ ['<']) = (text, ['<']) := by
  rw [withhold_append (by decide), if_pos (by decide)]

theorem not_agree_late_start {u : Text} (hu : u ≠ []) (hstart : ¬ reasoningStart <:+: u) :
    ¬ kimiK2.Agree false (u ++ (reasoningStart ++ text)) := by
  intro h
  have hall := h [u ++ (reasoningStart ++ text)] [u ++ ['<'], reasoningStart.tail ++ text] (by simp) (by simp [reasoningStart])
  rw [emitted_skip_cons hu hstart, emitted_flush_cons (not_waits_mark hu) (not_start_mark hstart)] at hall
  change _ = inBlock false (withhold '<' tokens _).1 ++ kimiK2.emitted ⟨false, (withhold '<' tokens _).2⟩ _ at hall
  rw [withhold_mark, emitted_mark_start] at hall
  have hcontent := congrArg ReasoningParserResult.content hall
  exact hu (by simpa [inBlock] using hcontent)

theorem tail_reasoningEnd (b : Text) (rest : List Text) : kimiK2.tail reasoningEnd b rest =
    inBlock false (withhold '<' tokens b).1 ++ kimiK2.emitted ⟨false, (withhold '<' tokens b).2⟩ rest := rfl

theorem tail_toolSectionStart (b : Text) : kimiK2.tail toolSectionStart b [] = inBlock false (toolSectionStart ++ b) := by
  have hne : toolSectionStart ≠ reasoningEnd := by decide
  simp [tail, kimiK2, after, hne, finish, inBlock]

variable {rest : List Text} {x v : Text} {m : Bool}

theorem tail_of_no_start (h : ¬ reasoningStart <:+: b ++ rest.flatten) :
    kimiK2.tail reasoningEnd b rest = inBlock false (withoutEnd (b ++ rest.flatten)) := by
  have hrest := withhold_suffix '<' tokens b rest.flatten
  rw [tail_reasoningEnd, emitted_content _ (waits_held b) fun hin => h (hin.trans hrest.isInfix),
    ← inBlock_append, withoutEnd_withhold]

theorem withhold_start (hx : '<' ∉ x) (hb : b <+: reasoningStart) : withhold '<' tokens (x ++ b) = (x, b) := by
  by_cases hnil : b = []
  · rw [hnil, append_nil, withhold_of_notMem hx]
  · rw [withhold_append (marked_reasoningStart.of_prefix hb hnil), if_pos ⟨reasoningStart, by decide, hb⟩]

theorem tail_start (hx : '<' ∉ x) (hb : b ++ rest.flatten = reasoningStart) :
    kimiK2.tail reasoningEnd (x ++ b) rest = inBlock false x := by
  rw [tail_reasoningEnd, withhold_start hx ⟨_, hb⟩, emitted_of_waits (hb ▸ waits_of_isPrefix kimiK2.start_mem prefix_rfl), hb]
  simp [finish, inBlock]

theorem tail_whole (b : Text) : ∃ c, kimiK2.tail reasoningEnd b [] = inBlock false c ∧ c <+: b ∧ b.length ≤ c.length + 8 := by
  have hsplit := withhold_eq '<' tokens b
  have hlen := congrArg length hsplit
  rw [tail_reasoningEnd, emitted_nil, finish]
  split
  case isTrue hmem =>
      refine ⟨(withhold '<' tokens b).1, by simp [inBlock], ⟨_, hsplit⟩, ?_⟩
      have htags : ∀ held ∈ [[], reasoningStart, reasoningEnd], held.length ≤ 8 := by decide
      have hshort := htags _ hmem
      simp only [length_append] at hlen hshort
      omega
  case isFalse => exact ⟨b, by rw [← inBlock_append, hsplit], prefix_rfl, by omega⟩

/-- Content after `</think>` that is read in one way. -/
def EndOk (lead b : Text) : Prop := ¬ reasoningStart <:+: b ∨ b = reasoningStart ∨ lead = [] ∧ ∃ x ≠ '<', b = x :: reasoningStart

/-- An opening tag that more text follows is content if it arrives with the end tag, and opens a block otherwise. -/
theorem eq_nil_of_tailAgree {y : Text} (hall : kimiK2.TailAgree reasoningEnd lead (v ++ (reasoningStart ++ y))) : y = [] := by
  have heq := hall (v ++ (reasoningStart ++ y)) [] (v ++ ['<']) [reasoningStart.tail ++ y] (by simp)
    (by simp [reasoningStart]) (fun _ => by simp [reasoningStart]) (fun _ => by simp)
  rw [tail_reasoningEnd (v ++ ['<']), withhold_mark, emitted_mark_start] at heq
  obtain ⟨c, hc, hpre, hlen⟩ := tail_whole (v ++ (reasoningStart ++ y))
  rw [hc] at heq
  by_cases hend : ∃ e ∈ kimiK2.ends, e <:+: y
  · obtain ⟨a, e, b, rfl, hfirst⟩ := exists_firstEnd hend
    rw [think_tail hfirst] at heq
    rcases mem_pair.1 hfirst.mem with rfl | rfl
    · -- closed again by `</think>`: both tags are missing on one side
      obtain ⟨c', hc', hpre', -⟩ := tail_whole b
      rw [hc'] at heq
      have hcontent : c = v ++ c' := by simpa [inBlock] using congrArg ReasoningParserResult.content heq
      have hle := hpre'.length_le
      rw [hcontent] at hlen
      simp [reasoningStart, reasoningEnd] at hlen
      omega
    · rw [tail_toolSectionStart] at heq
      have hcontent : c = v ++ (toolSectionStart ++ b) := by
        simpa [inBlock] using congrArg ReasoningParserResult.content heq
      rw [hcontent, prefix_append_right_inj] at hpre
      rcases prefix_or_prefix_of_prefix ((prefix_append _ _).trans hpre) (prefix_append reasoningStart _) with h | h
      · exact absurd h (by decide)
      · exact absurd h (by decide)
  · rw [think_whole fun e he hin => hend ⟨e, he, hin⟩] at heq
    simpa [inBlock] using congrArg ReasoningParserResult.reasoningContent heq

/-- An opening tag at the end drops what arrives with it after the delta that holds the end tag. -/
theorem eq_of_tailAgree_start (hall : kimiK2.TailAgree reasoningEnd lead (v ++ reasoningStart))
    (hv : ¬ reasoningStart <:+: v) (hne : v ≠ []) : lead = [] ∧ ∃ x ≠ '<', v = [x] := by
  have hwhole : kimiK2.tail reasoningEnd (v ++ reasoningStart) [] = inBlock false v := by
    rw [tail_reasoningEnd, withhold_append marked_reasoningStart, if_pos (by decide)]
    simp [finish, inBlock]
  have hnonempty : v ++ reasoningStart ≠ [] := by simp [hne]
  have hskip : ∀ u, u ≠ [] → ¬ reasoningStart <:+: u → kimiK2.emitted ⟨false, []⟩ [u ++ reasoningStart] = {} := by
    intro u hu hstart
    have heq : kimiK2.emitted ⟨false, []⟩ [u ++ (reasoningStart ++ [])] = _ := emitted_skip_cons hu hstart
    rwa [append_nil] at heq
  by_cases hlead : lead = []
  · obtain ⟨x, v, rfl⟩ := exists_cons_of_ne_nil hne
    have heq := hall (x :: v ++ reasoningStart) [] [x] [v ++ reasoningStart] (by simp) (by simp)
      (fun _ => hnonempty) (fun _ => by simp)
    rw [hwhole, tail_reasoningEnd] at heq
    by_cases hx : x = '<'
    · subst hx
      have hlost : kimiK2.emitted ⟨false, ['<']⟩ [v ++ reasoningStart] = {} := by
        rw [← think_nil]
        exact emitted_skip (not_waits_append hne marked_reasoningStart []) hv (by simp)
      rw [show withhold '<' tokens ['<'] = ([], ['<']) from withhold_mark [], hlost] at heq
      exact absurd (congrArg ReasoningParserResult.content heq) (by simp [inBlock])
    · rw [withhold_of_notMem (by simpa using Ne.symm hx)] at heq
      refine ⟨hlead, x, hx, ?_⟩
      by_contra htail
      have hv' : ¬ reasoningStart <:+: v := fun hin => hv (hin.trans (suffix_cons x v).isInfix)
      rw [hskip v (by simpa using htail) hv'] at heq
      exact htail (by simpa [inBlock] using congrArg ReasoningParserResult.content heq)
  · have heq := hall (v ++ reasoningStart) [] [] [v ++ reasoningStart] (by simp) (by simp) (fun _ => hnonempty)
      (fun h => absurd h hlead)
    rw [hwhole, tail_reasoningEnd, withhold_of_notMem (by simp), hskip v hne hv] at heq
    exact absurd (by simpa [inBlock] using congrArg ReasoningParserResult.content heq) hne

theorem tailAgree_reasoningEnd : kimiK2.TailAgree reasoningEnd lead b ↔ EndOk lead b := by
  constructor
  · intro hall
    by_cases hstart : reasoningStart <:+: b
    · obtain ⟨v, y, rfl, hv⟩ := exists_first (by decide) hstart
      obtain rfl := eq_nil_of_tailAgree hall
      rw [append_nil] at hall ⊢
      by_cases hne : v = []
      · exact .inr (.inl (by rw [hne, nil_append]))
      · obtain ⟨hlead, x, hx, rfl⟩ := eq_of_tailAgree_start hall hv hne
        exact .inr (.inr ⟨hlead, x, hx, rfl⟩)
    · exact .inl hstart
  · rintro (h | rfl | ⟨hlead, x, hx, rfl⟩) b₁ rest b₂ rest' hb₁ hb₂ hne₁ hne₂
    · rw [tail_of_no_start (hb₁ ▸ h), tail_of_no_start (hb₂ ▸ h), hb₁, hb₂]
    · exact (tail_start (x := []) (by simp) hb₁).trans (tail_start (by simp) hb₂).symm
    obtain ⟨c₁, b₁, rfl⟩ := exists_cons_of_ne_nil (hne₁ hlead)
    obtain ⟨c₂, b₂, rfl⟩ := exists_cons_of_ne_nil (hne₂ hlead)
    obtain ⟨hc₁, hrest₁⟩ := cons.inj hb₁
    obtain ⟨hc₂, hrest₂⟩ := cons.inj hb₂
    rw [hc₁, hc₂]
    have hnot : '<' ∉ [x] := by simpa using hx.symm
    exact (tail_start hnot hrest₁).trans (tail_start hnot hrest₂).symm

/-- A text that ends with the start of a tool section is content or reasoning, depending on whether the token arrives
alone. -/
theorem not_agree_tool {a : Text} (hfirst : kimiK2.FirstEnd a toolSectionStart)
    (hlead : opening m ++ a ≠ []) : ¬ kimiK2.Agree m (opening m ++ (a ++ (toolSectionStart ++ []))) := by
  have hwaits : ¬ kimiK2.Waits (opening m ++ (a ++ (toolSectionStart ++ []))) := by
    rw [← append_assoc]
    exact not_waits_append hlead marked_toolSectionStart []
  have hcut : ¬ kimiK2.Waits (opening m ++ (a ++ ['<'])) := by
    rw [← append_assoc]
    exact not_waits_mark hlead
  have hmark : ∀ e ∈ kimiK2.ends, ¬ e <:+: ['<'] := by decide
  have hnone : kimiK2.NoEnd (a ++ ['<']) := fun e he hin =>
    ((ends_marked he).infix_append_cons hin).elim (hfirst.absent e he) (hmark e he)
  have hkept : kimiK2.emitted ⟨true, ['<']⟩ [toolSectionStart.tail] = inBlock true toolSectionStart :=
    (emitted_of_waits (waits_of_isPrefix (end_mem_tokens hfirst.mem) (by decide))).trans (by decide)
  rw [agree_opening hwaits]
  intro hall
  have heq := hall (a ++ (toolSectionStart ++ [])) [] (a ++ ['<']) [toolSectionStart.tail] (by simp)
    (by simp [toolSectionStart]) hwaits hcut
  rw [think_tail hfirst, tail_toolSectionStart, thinks, think_of_no_end hnone, withhold_append (by decide),
    if_pos (by decide), hkept] at heq
  have hcontent := congrArg ReasoningParserResult.content heq
  simp [inBlock, toolSectionStart] at hcontent

def BodyOk (reasoningAtStart : Bool) (text : Text) : Prop :=
  (¬ reasoningEnd <:+: text ∧ ¬ toolSectionStart <:+: text → ¬ reasoningStart <:+ text) ∧
    (∀ a b, text = a ++ (reasoningEnd ++ b) → kimiK2.FirstEnd a reasoningEnd → EndOk (opening reasoningAtStart ++ a) b) ∧
    ∀ a b, text = a ++ (toolSectionStart ++ b) → kimiK2.FirstEnd a toolSectionStart →
      b ≠ [] ∧ Quiet (later (opening reasoningAtStart ++ a) b)

theorem agree_body (hwaits : ¬ kimiK2.Waits (opening m ++ text)) : kimiK2.Agree m (opening m ++ text) ↔ BodyOk m text := by
  by_cases hend : ∃ e ∈ kimiK2.ends, e <:+: text
  · obtain ⟨a, e, b, rfl, hfirst⟩ := exists_firstEnd hend
    have hlead := hfirst.ne_nil hwaits
    have hin : e <:+: a ++ (e ++ b) := ⟨a, b, by rw [append_assoc]⟩
    rcases mem_pair.1 hfirst.mem with rfl | rfl
    · rw [agree_firstEnd hfirst hwaits fun _ => by decide, tailAgree_reasoningEnd]
      refine ⟨fun h => ⟨fun hnot => absurd hin hnot.1, fun a' b' heq h' => ?_, fun a' b' heq h' => ?_⟩,
        fun h => h.2.1 a b rfl hfirst⟩
      · obtain ⟨rfl, -, rfl⟩ := hfirst.unique h' heq
        exact h
      · exact absurd (hfirst.unique h' heq).2.1 (by decide)
    · have hiff : kimiK2.Agree m (opening m ++ (a ++ (toolSectionStart ++ b))) ↔ b ≠ [] ∧ Quiet (later (opening m ++ a) b) := by
        by_cases hb : b = []
        · subst hb
          exact iff_of_false (not_agree_tool hfirst fun h => hlead h rfl) fun h => h.1 rfl
        · rw [agree_firstEnd hfirst hwaits fun h => absurd h hb, tailAgree_iff (fun _ => rfl) hlead emitted_quiet]
          exact ⟨fun h => ⟨hb, h⟩, fun h => h.2⟩
      rw [hiff]
      refine ⟨fun h => ⟨fun hnot => absurd hin hnot.2, fun a' b' heq h' => ?_, fun a' b' heq h' => ?_⟩,
        fun h => h.2.2 a b rfl hfirst⟩
      · exact absurd (hfirst.unique h' heq).2.1 (by decide)
      · obtain ⟨rfl, -, rfl⟩ := hfirst.unique h' heq
        exact h
  · have hnone : kimiK2.NoEnd text := fun e he hin => hend ⟨e, he, hin⟩
    have habsent : ∀ e ∈ kimiK2.ends, ∀ a b, text ≠ a ++ (e ++ b) := by
      rintro e he a b rfl
      exact hnone e he ⟨a, b, by rw [append_assoc]⟩
    rw [agree_no_end hwaits hnone]
    refine ⟨fun h => ⟨fun _ => h, fun a b heq _ => ?_, fun a b heq _ => ?_⟩,
      fun h => h.1 ⟨hnone _ (by decide), hnone _ (by decide)⟩⟩
    · exact absurd heq (habsent _ (by decide) a b)
    · exact absurd heq (habsent _ (by decide) a b)

theorem agree_iff (m : Bool) (text : Text) : kimiK2.Agree m text ↔ kimiK2.CutInvariant (fun _ => True) BodyOk m text :=
  agree_iff_cutInvariant (fun _ _ h => iff_of_true (agree_content h) trivial) (fun _ _ => not_agree_late_start)
    (fun _ _ => agree_body) m text

end KimiK2

/-- For each parser and either setting, all cuts of a text agree exactly if the text is one of these. -/
theorem agree_iff_cutInvariant_of_thinkParser (reasoningAtStart : Bool) (text : Text) :
    (deepSeekR1.Agree reasoningAtStart text ↔
      deepSeekR1.CutInvariant DeepSeekR1.ContentOk DeepSeekR1.BodyOk reasoningAtStart text) ∧
    (kimiK2.Agree reasoningAtStart text ↔ kimiK2.CutInvariant (fun _ => True) KimiK2.BodyOk reasoningAtStart text) :=
  ⟨DeepSeekR1.agree_iff reasoningAtStart text, KimiK2.agree_iff reasoningAtStart text⟩

/-- `a<think>r` loses its first character only if it arrives with the tag, and `r</think>a<think>` its last tag only if
that arrives alone. -/
theorem cuts_of_late_start_differ :
    deepSeekR1.emitted { inReasoning := false } [['a'] ++ reasoningStart ++ ['r']] = ⟨[], ['r']⟩ ∧
    deepSeekR1.emitted { inReasoning := false } [['a'], reasoningStart ++ ['r']] = ⟨['a'], ['r']⟩ ∧
    deepSeekR1.emitted { inReasoning := true } [['r'] ++ reasoningEnd ++ ['a'] ++ reasoningStart] =
      ⟨'a' :: reasoningStart, ['r']⟩ ∧
    deepSeekR1.emitted { inReasoning := true } [['r'] ++ reasoningEnd ++ ['a'], reasoningStart] = ⟨['a'], ['r']⟩ ∧
    kimiK2.emitted { inReasoning := false } [['a'] ++ reasoningStart ++ ['r']] = ⟨[], ['r']⟩ ∧
    kimiK2.emitted { inReasoning := false } [['a'], reasoningStart ++ ['r']] = ⟨['a'], ['r']⟩ := by
  decide +kernel

end TrtLlm.LlmApi
