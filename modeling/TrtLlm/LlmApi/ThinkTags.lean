import TrtLlm.LlmApi.ReasoningParser

/-!
# Parsers for `<think>` tags

`DeepSeekR1Parser` and `KimiK2ReasoningParser` decide delta by delta what to emit, so that depends on where the text is
cut: text before an opening tag is dropped only if it arrives with the tag, text after a closing tag is not searched
again if it arrives with that tag, and a buffer that holds a complete tag at the end of the stream is discarded. The
texts for which no cut makes a difference are characterised exactly.
-/

namespace TrtLlm.LlmApi

open TextSearch ReasoningParserResult

open List

def reasoningStart : Text := ['<', 't', 'h', 'i', 'n', 'k', '>']

def reasoningEnd : Text := ['<', '/', 't', 'h', 'i', 'n', 'k', '>']

def toolSectionStart : Text :=
  ['<', '|', 't', 'o', 'o', 'l', '_', 'c', 'a', 'l', 'l', 's', '_', 's', 'e', 'c', 't', 'i', 'o', 'n', '_',
    'b', 'e', 'g', 'i', 'n', '|', '>']

theorem marked_reasoningStart : Marked '<' reasoningStart := by decide

theorem marked_reasoningEnd : Marked '<' reasoningEnd := by decide

theorem marked_toolSectionStart : Marked '<' toolSectionStart := by decide

/-- The parts in which the parsers for `<think>` tags differ. -/
structure ThinkParser where
  tokens : List Text
  ends : List Text
  /-- Text without `<think>` outside of a reasoning block: what is emitted, and what stays in the buffer. -/
  flush : Text → Text × Text
  /-- The end of the reasoning block, if the text contains it. -/
  close : Text → Option (ReasoningParserResult × ParserState)
  /-- What follows an end token: what of it is emitted, and what stays in the buffer. -/
  after : Text → Text → Text × Text
  tokens_marked : ∀ tag ∈ tokens, Marked '<' tag
  tokens_eq : ∀ tag ∈ tokens, ∀ tag' ∈ tokens, tag <+: tag' → tag = tag'
  start_mem : reasoningStart ∈ tokens
  end_mem : reasoningEnd ∈ ends
  ends_subset : ends ⊆ tokens
  start_notMem : reasoningStart ∉ ends
  close_eq_none : ∀ text, (∀ e ∈ ends, ¬ e <:+: text) → close text = none
  close_eq_some : ∀ a, ∀ e ∈ ends, ∀ b, (∀ e' ∈ ends, ¬ e' <:+: a) →
    close (a ++ (e ++ b)) = some (⟨(after e b).1, a⟩, ⟨false, (after e b).2⟩)
  after_length : ∀ e b, (after e b).1.length + (after e b).2.length ≤ e.length + b.length

namespace ThinkParser

variable (p : ThinkParser)

/-- The text may be the beginning of a token. -/
def Waits (text : Text) : Prop := ∃ tag ∈ p.tokens, text <+: tag

instance (text : Text) : Decidable (p.Waits text) := inferInstanceAs (Decidable (∃ tag ∈ p.tokens, text <+: tag))

/-- The part of `parse_delta` that runs inside a reasoning block. -/
def think (deltaText : Text) : ReasoningParserResult × ParserState :=
  (p.close deltaText).getD
    ({ reasoningContent := (withhold '<' p.ends deltaText).1 },
      { inReasoning := true, buffer := (withhold '<' p.ends deltaText).2 })

def parseDelta (s : ParserState) (deltaText : Text) : ReasoningParserResult × ParserState :=
  let deltaText := s.buffer ++ deltaText
  if p.Waits deltaText then ({}, { s with buffer := deltaText })
  else if s.inReasoning then p.think deltaText
  else match find reasoningStart deltaText with
    | none => ({ content := (p.flush deltaText).1 }, { inReasoning := false, buffer := (p.flush deltaText).2 })
    | some beginIdx => p.think (deltaText.drop (beginIdx + reasoningStart.length))

def finish (s : ParserState) : ReasoningParserResult :=
  if s.buffer ∈ [[], reasoningStart, reasoningEnd] then {} else inBlock s.inReasoning s.buffer

def emitted (s : ParserState) (deltas : List Text) : ReasoningParserResult := stream p.parseDelta finish s deltas

def Agree (reasoningAtStart : Bool) (text : Text) : Prop :=
  ∀ deltas deltas' : List Text, deltas.flatten = text → deltas'.flatten = text →
    p.emitted { inReasoning := reasoningAtStart } deltas = p.emitted { inReasoning := reasoningAtStart } deltas'

end ThinkParser

def deepSeekR1 : ThinkParser where
  tokens := [reasoningStart, reasoningEnd]
  ends := [reasoningEnd]
  flush text := (text, [])
  close text := (find reasoningEnd text).map fun endIdx =>
    ({ reasoningContent := text.take endIdx, content := text.drop (endIdx + reasoningEnd.length) }, { inReasoning := false })
  after _ b := (b, [])
  tokens_marked := by decide
  tokens_eq := by decide
  start_mem := by decide
  end_mem := by decide
  ends_subset := by decide
  start_notMem := by decide
  close_eq_none text h := by simp [find_eq_none.2 (h reasoningEnd (by simp))]
  close_eq_some a e he b ha := by
    obtain rfl : e = reasoningEnd := by simpa using he
    simp [marked_reasoningEnd.find_append (ha reasoningEnd (by simp))]
  after_length e b := by simp

namespace KimiK2

def tokens : List Text := [reasoningStart, reasoningEnd, toolSectionStart]

/-- The branches of `parse_delta` for `</think>` and for the start of a tool section, whichever comes first. -/
def close (deltaText : Text) : Option (ReasoningParserResult × ParserState) :=
  let byEnd endIdx :=
    let content := deltaText.drop (endIdx + reasoningEnd.length)
    some (⟨(withhold '<' tokens content).1, deltaText.take endIdx⟩, ⟨false, (withhold '<' tokens content).2⟩)
  let byTool toolIdx := some (⟨deltaText.drop toolIdx, deltaText.take toolIdx⟩, { inReasoning := false })
  match find reasoningEnd deltaText, find toolSectionStart deltaText with
  | some endIdx, none => byEnd endIdx
  | some endIdx, some toolIdx => if endIdx ≤ toolIdx then byEnd endIdx else byTool toolIdx
  | none, some toolIdx => byTool toolIdx
  | none, none => none

def after (e b : Text) : Text × Text := if e = reasoningEnd then withhold '<' tokens b else (e ++ b, [])

theorem close_reasoningEnd {a b : Text} (hend : ¬ reasoningEnd <:+: a) (htool : ¬ toolSectionStart <:+: a) :
    close (a ++ (reasoningEnd ++ b)) = some (⟨(after reasoningEnd b).1, a⟩, ⟨false, (after reasoningEnd b).2⟩) := by
  have hfind := marked_reasoningEnd.find_append (b := b) hend
  cases htoolIdx : find toolSectionStart (a ++ (reasoningEnd ++ b)) with
  | none => simp [close, after, hfind, htoolIdx]
  | some j =>
    obtain ⟨⟨x, y, hxy, rfl⟩, -⟩ := find_eq_some.1 htoolIdx
    have hle : a.length ≤ x.length := marked_toolSectionStart.le_of_occurrence htool hxy
    simp [close, after, hfind, htoolIdx, hle]

theorem close_toolSectionStart {a b : Text} (hend : ¬ reasoningEnd <:+: a) (htool : ¬ toolSectionStart <:+: a) :
    close (a ++ (toolSectionStart ++ b)) = some (⟨(after toolSectionStart b).1, a⟩, ⟨false, (after toolSectionStart b).2⟩) := by
  have hfind := marked_toolSectionStart.find_append (b := b) htool
  have hne : toolSectionStart ≠ reasoningEnd := by decide
  cases hendIdx : find reasoningEnd (a ++ (toolSectionStart ++ b)) with
  | none => simp [close, after, hfind, hendIdx, hne]
  | some i =>
    obtain ⟨⟨x, y, hxy, rfl⟩, -⟩ := find_eq_some.1 hendIdx
    have hle : a.length ≤ x.length := marked_reasoningEnd.le_of_occurrence hend hxy
    have hnot : ¬ x.length ≤ a.length := by
      intro hge
      obtain ⟨-, htags⟩ := append_inj hxy (by omega)
      have hpre : reasoningEnd <+: toolSectionStart ++ b := ⟨y, htags.symm⟩
      rcases prefix_or_prefix_of_prefix hpre (prefix_append _ b) with h | h
      · exact absurd h (by decide)
      · exact absurd h (by decide)
    simp [close, after, hfind, hendIdx, hne, hnot]

end KimiK2

def kimiK2 : ThinkParser where
  tokens := KimiK2.tokens
  ends := [reasoningEnd, toolSectionStart]
  flush := withhold '<' KimiK2.tokens
  close := KimiK2.close
  after := KimiK2.after
  tokens_marked := by decide
  tokens_eq := by decide
  start_mem := by decide
  end_mem := by decide
  ends_subset := by decide
  start_notMem := by decide
  close_eq_none text h := by
    simp [KimiK2.close, find_eq_none.2 (h reasoningEnd (by simp)), find_eq_none.2 (h toolSectionStart (by simp))]
  close_eq_some a e he b ha := by
    have hend := ha reasoningEnd (by simp)
    have htool := ha toolSectionStart (by simp)
    rcases mem_pair.1 he with rfl | rfl
    · exact KimiK2.close_reasoningEnd hend htool
    · exact KimiK2.close_toolSectionStart hend htool
  after_length e b := by
    unfold KimiK2.after
    split
    · rw [← length_append, withhold_eq]
      omega
    · simp

namespace ThinkParser

variable {p : ThinkParser} {a e text b tag buffer : Text} {deltas : List Text}

theorem Waits.of_prefix (h : p.Waits b) (hab : a <+: b) : p.Waits a :=
  let ⟨tag, htag, hb⟩ := h
  ⟨tag, htag, hab.trans hb⟩

theorem waits_of_isPrefix (htag : tag ∈ p.tokens) (h : text <+: tag) : p.Waits text := ⟨tag, htag, h⟩

theorem waits_nil : p.Waits [] := waits_of_isPrefix p.start_mem nil_prefix

theorem end_mem_tokens (he : e ∈ p.ends) : e ∈ p.tokens := p.ends_subset he

theorem ends_marked (he : e ∈ p.ends) : Marked '<' e := p.tokens_marked e (end_mem_tokens he)

theorem not_waits_append (ha : a ≠ []) (htag : Marked '<' tag) (b : Text) : ¬ p.Waits (a ++ (tag ++ b)) := by
  rintro ⟨token, htoken, hpre⟩
  obtain ⟨tail, rfl, -⟩ := htag.eq_cons
  exact ha ((p.tokens_marked token htoken).eq_nil_of_isPrefix hpre)

theorem not_waits_mark (ha : a ≠ []) : ¬ p.Waits (a ++ ['<']) := not_waits_append ha (show Marked '<' ['<'] by decide) []

theorem not_start_mark (h : ¬ reasoningStart <:+: a) : ¬ reasoningStart <:+: a ++ ['<'] := fun hin =>
  (marked_reasoningStart.infix_append_cons hin).elim h (by decide)

theorem not_waits_cons {c : Char} (hc : c ≠ '<') (text : Text) : ¬ p.Waits (c :: text) := by
  rintro ⟨token, htoken, hpre⟩
  obtain ⟨tail, rfl, -⟩ := (p.tokens_marked token htoken).eq_cons
  exact hc (cons_prefix_cons.1 hpre).1

theorem not_waits_token (htag : tag ∈ p.tokens) (hb : b ≠ []) : ¬ p.Waits (tag ++ b) := by
  rintro ⟨token, htoken, hpre⟩
  have heq := p.tokens_eq tag htag token htoken ((prefix_append tag b).trans hpre)
  have hlen := hpre.length_le
  rw [← heq, length_append] at hlen
  exact hb (length_eq_zero_iff.1 (by omega))

theorem start_not_prefix_end : ¬ ∃ e ∈ p.ends, reasoningStart <+: e := by
  rintro ⟨e, he, hpre⟩
  exact p.start_notMem (p.tokens_eq _ p.start_mem e (end_mem_tokens he) hpre ▸ he)

theorem find_reasoningStart_append (text : Text) : find reasoningStart (reasoningStart ++ text) = some 0 :=
  marked_reasoningStart.find_append (a := []) (by decide)

theorem finish_eq {m : Bool} (hstart : buffer ≠ reasoningStart) (hend : buffer ≠ reasoningEnd) :
    finish ⟨m, buffer⟩ = inBlock m buffer := by
  by_cases hnil : buffer = [] <;> simp [finish, hnil, hstart, hend]

section Steps

variable {s : ParserState} {b : Bool} {buffer delta : Text} {deltas : List Text}

@[simp] theorem emitted_nil : p.emitted s [] = finish s := rfl

theorem emitted_cons : p.emitted s (delta :: deltas) =
    (p.parseDelta s delta).1 ++ p.emitted (p.parseDelta s delta).2 deltas := rfl

theorem emitted_waits (h : p.Waits (buffer ++ delta)) :
    p.emitted ⟨b, buffer⟩ (delta :: deltas) = p.emitted ⟨b, buffer ++ delta⟩ deltas := by
  simp [emitted_cons, parseDelta, h]

theorem emitted_of_waits (h : p.Waits (buffer ++ deltas.flatten)) :
    p.emitted ⟨b, buffer⟩ deltas = finish ⟨b, buffer ++ deltas.flatten⟩ := by
  induction deltas generalizing buffer with
  | nil => simp
  | cons delta deltas ih =>
    rw [flatten_cons, ← append_assoc] at h ⊢
    rw [emitted_waits (h.of_prefix (prefix_append _ _)), ih h]

theorem emitted_flush (hwaits : ¬ p.Waits (buffer ++ delta)) (hstart : ¬ reasoningStart <:+: buffer ++ delta) :
    p.emitted ⟨false, buffer⟩ (delta :: deltas) =
      inBlock false (p.flush (buffer ++ delta)).1 ++ p.emitted ⟨false, (p.flush (buffer ++ delta)).2⟩ deltas := by
  simp [emitted_cons, parseDelta, hwaits, find_eq_none.2 hstart, inBlock]

theorem emitted_flush_cons (hwaits : ¬ p.Waits delta) (hstart : ¬ reasoningStart <:+: delta) :
    p.emitted ⟨false, []⟩ (delta :: deltas) = inBlock false (p.flush delta).1 ++ p.emitted ⟨false, (p.flush delta).2⟩ deltas :=
  @emitted_flush p [] delta deltas hwaits hstart

/-- The text that brings a parser into the reasoning block. -/
def opening (inReasoning : Bool) : Text := if inReasoning then [] else reasoningStart

/-- Everything emitted inside a reasoning block and after it, if `text` arrives first and the rest later. -/
def thinks (p : ThinkParser) (text : Text) (rest : List Text) : ReasoningParserResult :=
  (p.think text).1 ++ p.emitted (p.think text).2 rest

theorem emitted_opening (hwaits : ¬ p.Waits (opening b ++ text)) (htext : buffer ++ delta = opening b ++ text) :
    p.emitted ⟨b, buffer⟩ (delta :: deltas) = p.thinks text deltas := by
  cases b with
  | true => simp_all [emitted_cons, parseDelta, opening, thinks]
  | false =>
    simp only [opening, Bool.false_eq_true, if_false] at hwaits htext
    simp [emitted_cons, parseDelta, htext, hwaits, find_reasoningStart_append, thinks]

theorem emitted_think (hwaits : ¬ p.Waits (buffer ++ delta)) : p.emitted ⟨true, buffer⟩ (delta :: deltas) =
    p.thinks (buffer ++ delta) deltas :=
  emitted_opening hwaits rfl

theorem emitted_opening_cons (hwaits : ¬ p.Waits (opening b ++ text)) :
    p.emitted ⟨b, []⟩ ((opening b ++ text) :: deltas) = p.thinks text deltas :=
  emitted_opening hwaits (nil_append _)

theorem emitted_skip (hwaits : ¬ p.Waits (buffer ++ delta)) (ha : ¬ reasoningStart <:+: a)
    (htext : buffer ++ delta = a ++ (reasoningStart ++ text)) :
    p.emitted ⟨false, buffer⟩ (delta :: deltas) = p.thinks text deltas := by
  have hfind := marked_reasoningStart.find_append (b := text) ha
  rw [htext] at hwaits
  simp [emitted_cons, parseDelta, htext, hwaits, hfind, thinks]

theorem emitted_skip_cons (ha : a ≠ []) (hstart : ¬ reasoningStart <:+: a) :
    p.emitted ⟨false, []⟩ ((a ++ (reasoningStart ++ text)) :: deltas) = p.thinks text deltas :=
  @emitted_skip p a text [] _ deltas (not_waits_append ha marked_reasoningStart text) hstart rfl

end Steps

/-- The first delta that is more than the beginning of a token starts the reasoning. -/
theorem exists_think {b : Bool} (htext : buffer ++ deltas.flatten = opening b ++ text) (hbuffer : p.Waits buffer)
    (hwaits : ¬ p.Waits (opening b ++ text)) :
    ∃ first rest, first ++ flatten rest = text ∧ ¬ p.Waits (opening b ++ first) ∧
      p.emitted ⟨b, buffer⟩ deltas = p.thinks first rest := by
  induction deltas generalizing buffer with
  | nil =>
    rw [flatten_nil, append_nil] at htext
    exact absurd (htext ▸ hbuffer) hwaits
  | cons delta deltas ih =>
    rw [flatten_cons, ← append_assoc] at htext
    by_cases hdelta : p.Waits (buffer ++ delta)
    · rw [emitted_waits hdelta]
      exact ih htext hdelta
    -- what has arrived reaches beyond the opening
    have hpre : buffer ++ delta <+: opening b ++ text := ⟨_, htext⟩
    have hopening : opening b <+: buffer ++ delta := by
      rcases prefix_or_prefix_of_prefix (prefix_append (opening b) text) hpre with h | h
      · exact h
      · refine absurd ?_ hdelta
        cases b with
        | true => exact waits_nil.of_prefix h
        | false => exact waits_of_isPrefix p.start_mem h
    obtain ⟨first, hfirst⟩ := hopening
    refine ⟨first, deltas, ?_, hfirst ▸ hdelta, emitted_opening (hfirst ▸ hdelta) hfirst.symm⟩
    rw [← hfirst, append_assoc] at htext
    exact append_cancel_left htext

theorem agree_of_waits {b : Bool} (h : p.Waits text) : p.Agree b text := by
  intro deltas deltas' htext htext'
  rw [emitted_of_waits (by simpa [htext] using h), emitted_of_waits (by simpa [htext'] using h), htext, htext']

theorem agree_opening {b : Bool} (hwaits : ¬ p.Waits (opening b ++ text)) :
    p.Agree b (opening b ++ text) ↔ ∀ first rest first' rest', first ++ flatten rest = text →
      first' ++ flatten rest' = text → ¬ p.Waits (opening b ++ first) → ¬ p.Waits (opening b ++ first') →
      p.thinks first rest = p.thinks first' rest' := by
  constructor
  · intro h first rest first' rest' htext htext' hfirst hfirst'
    have heq := h ((opening b ++ first) :: rest) ((opening b ++ first') :: rest') (by simp [htext]) (by simp [htext'])
    rwa [emitted_opening_cons hfirst, emitted_opening_cons hfirst'] at heq
  · intro h deltas deltas' htext htext'
    obtain ⟨first, rest, hfirst, hne, heq⟩ := exists_think (show [] ++ deltas.flatten = _ from htext) waits_nil hwaits
    obtain ⟨first', rest', hfirst', hne', heq'⟩ := exists_think (show [] ++ deltas'.flatten = _ from htext') waits_nil hwaits
    rw [heq, heq']
    exact h first rest first' rest' hfirst hfirst' hne hne'

/-! ### Without an end of the reasoning -/

def NoEnd (p : ThinkParser) (text : Text) : Prop := ∀ e ∈ p.ends, ¬ e <:+: text

theorem NoEnd.of_infix (h : p.NoEnd b) (hab : a <:+: b) : p.NoEnd a := fun e he hin => h e he (hin.trans hab)

theorem think_of_no_end (h : p.NoEnd text) :
    p.think text = (inBlock true (withhold '<' p.ends text).1, ⟨true, (withhold '<' p.ends text).2⟩) := by
  simp [think, p.close_eq_none text h, inBlock]

theorem waits_withhold {tags : List Text} (htags : tags ⊆ p.tokens) (text : Text) : p.Waits (withhold '<' tags text).2 := by
  rcases withhold_grows '<' tags text with h | ⟨tag, htag, h⟩
  · rw [h]
    exact waits_nil
  · exact waits_of_isPrefix (htags htag) h

theorem think_no_end {first : Text} {rest : List Text} (hend : p.NoEnd first)
    (hrest : p.emitted ⟨true, (withhold '<' p.ends first).2⟩ rest = inBlock true
      ((withhold '<' p.ends first).2 ++ rest.flatten)) :
    p.thinks first rest = inBlock true (first ++ rest.flatten) := by
  rw [thinks, think_of_no_end hend, hrest, ← inBlock_append, ← append_assoc, withhold_eq]

theorem think_whole (hend : p.NoEnd text) :
    p.thinks text [] = inBlock true text := by
  rw [thinks, think_of_no_end hend]
  have hheld : (withhold '<' p.ends text).2 <:+ text := ⟨_, withhold_eq '<' p.ends text⟩
  have hne : (withhold '<' p.ends text).2 ≠ reasoningEnd := fun h => hend _ p.end_mem (h ▸ hheld.isInfix)
  have hkept : finish ⟨true, (withhold '<' p.ends text).2⟩ = inBlock true (withhold '<' p.ends text).2 := by
    rcases withhold_grows '<' p.ends text with hnil | hgrow
    · simp [finish, hnil]
    · exact finish_eq (fun h => start_not_prefix_end (h ▸ hgrow)) hne
  rw [emitted_nil, hkept, ← inBlock_append, withhold_eq]

theorem not_infix_nil (he : e ∈ p.ends) : ¬ e <:+: [] := fun hin =>
  absurd (infix_nil.1 hin ▸ ends_marked he) (by decide)

theorem think_nil : p.thinks [] [] = {} := think_whole fun _ => not_infix_nil

/-- A tag cut behind its `<` is read as if it had come whole. -/
theorem emitted_mark_start (text : Text) : p.emitted ⟨false, ['<']⟩ [reasoningStart.tail ++ text] =
    p.thinks text [] := by
  by_cases hnil : text = []
  · subst hnil
    rw [think_nil, emitted_of_waits (waits_of_isPrefix p.start_mem (by decide))]
    decide
  · exact emitted_opening (not_waits_token p.start_mem hnil) rfl

theorem emitted_no_end (hend : p.NoEnd (buffer ++ deltas.flatten))
    (hstart : ¬ reasoningStart <:+ buffer ++ deltas.flatten) :
    p.emitted ⟨true, buffer⟩ deltas = inBlock true (buffer ++ deltas.flatten) := by
  induction deltas generalizing buffer with
  | nil =>
    rw [flatten_nil, append_nil] at hend hstart ⊢
    exact finish_eq (fun h => hstart (h ▸ suffix_rfl)) fun h => hend _ p.end_mem (h ▸ infix_rfl)
  | cons delta deltas ih =>
    rw [flatten_cons, ← append_assoc] at hend hstart ⊢
    by_cases hdelta : p.Waits (buffer ++ delta)
    · rw [emitted_waits hdelta, ih hend hstart]
    have hrest := withhold_suffix '<' p.ends (buffer ++ delta) deltas.flatten
    rw [emitted_think hdelta]
    refine think_no_end (hend.of_infix (prefix_append _ _).isInfix) (ih (hend.of_infix hrest.isInfix) ?_)
    exact fun h => hstart (h.trans hrest)

/-- Without an end token the cuts agree unless the reasoning ends in a complete `<think>`: cut behind its `<`, the rest
makes a discarded buffer. -/
theorem agree_no_end {b : Bool} (hwaits : ¬ p.Waits (opening b ++ text)) (hend : p.NoEnd text) :
    p.Agree b (opening b ++ text) ↔ ¬ reasoningStart <:+ text := by
  rw [agree_opening hwaits]
  constructor
  · rintro h ⟨u, rfl⟩
    have hne : opening b ++ u ≠ [] := by
      intro hnil
      rw [← append_assoc, hnil] at hwaits
      exact hwaits (waits_of_isPrefix p.start_mem prefix_rfl)
    have hcut : ¬ p.Waits (opening b ++ (u ++ ['<'])) := by
      rw [← append_assoc]
      exact not_waits_mark hne
    have heq := h (u ++ reasoningStart) [] (u ++ ['<']) [reasoningStart.tail] (by simp)
      (by rw [append_assoc]; rfl) hwaits hcut
    have hgrow : ∃ e ∈ p.ends, ['<'] <+: e := ⟨reasoningEnd, p.end_mem, by decide⟩
    have hpre : u ++ ['<'] <+: u ++ reasoningStart := ⟨reasoningStart.tail, by rw [append_assoc]; rfl⟩
    have hlost : p.emitted ⟨true, ['<']⟩ [reasoningStart.tail] = {} :=
      (emitted_of_waits (waits_of_isPrefix p.start_mem (by decide))).trans (by decide)
    rw [think_whole hend, thinks, think_of_no_end (hend.of_infix hpre.isInfix),
      withhold_append (by decide), if_pos hgrow, hlost] at heq
    have hreasoning := congrArg ReasoningParserResult.reasoningContent heq
    exact absurd (by simpa [inBlock] using hreasoning) (show reasoningStart ≠ [] by decide)
  · intro h first rest first' rest' htext htext' _ _
    have hone : ∀ first rest, first ++ .flatten rest = text →
        p.thinks first rest = inBlock true text := by
      rintro first rest rfl
      have hrest := withhold_suffix '<' p.ends first rest.flatten
      exact think_no_end (hend.of_infix (prefix_append _ _).isInfix)
        (emitted_no_end (hend.of_infix hrest.isInfix) fun hs => h (hs.trans hrest))
    rw [hone first rest htext, hone first' rest' htext']

/-! ### The end of the reasoning -/

/-- `e` is the first end token of a text, after `a`. -/
structure FirstEnd (p : ThinkParser) (a e : Text) : Prop where
  mem : e ∈ p.ends
  absent : ∀ e' ∈ p.ends, ¬ e' <:+: a

theorem exists_firstEnd (h : ∃ e ∈ p.ends, e <:+: text) : ∃ a e b, text = a ++ (e ++ b) ∧ p.FirstEnd a e := by
  induction text with
  | nil =>
    obtain ⟨e, he, hin⟩ := h
    exact absurd hin (not_infix_nil he)
  | cons c text ih =>
    by_cases hhere : ∃ e ∈ p.ends, e <+: c :: text
    · obtain ⟨e, he, b, hb⟩ := hhere
      exact ⟨[], e, b, hb.symm, he, fun _ => not_infix_nil⟩
    obtain ⟨e, he, hin⟩ := h
    have hlater : e <:+: text := (infix_cons_iff.1 hin).resolve_left fun hpre => hhere ⟨e, he, hpre⟩
    obtain ⟨a, e', b, rfl, hfirst⟩ := ih ⟨e, he, hlater⟩
    refine ⟨c :: a, e', b, rfl, hfirst.mem, fun x hx hin => ?_⟩
    rcases infix_cons_iff.1 hin with hpre | hin
    · exact hhere ⟨x, hx, hpre.trans ⟨e' ++ b, rfl⟩⟩
    · exact hfirst.absent x hx hin

variable (h : p.FirstEnd a e)

include h

theorem think_firstEnd (b : Text) : p.think (a ++ (e ++ b)) = (⟨(p.after e b).1, a⟩, ⟨false, (p.after e b).2⟩) := by
  simp [think, p.close_eq_some a e h.mem b h.absent]

theorem FirstEnd.unique {a' e' b' : Text} (h' : p.FirstEnd a' e') (heq : a ++ (e ++ b) = a' ++ (e' ++ b')) :
    a = a' ∧ e = e' ∧ b = b' := by
  have hclose := p.close_eq_some a e h.mem b h.absent
  rw [heq, p.close_eq_some a' e' h'.mem b' h'.absent] at hclose
  have ha : a' = a := by simp_all
  subst ha
  have hrest := append_cancel_left heq
  have he : e = e' := by
    rcases prefix_or_prefix_of_prefix ⟨b, hrest⟩ (prefix_append e' b') with hpre | hpre
    · exact p.tokens_eq e (end_mem_tokens h.mem) e' (end_mem_tokens h'.mem) hpre
    · exact (p.tokens_eq e' (end_mem_tokens h'.mem) e (end_mem_tokens h.mem) hpre).symm
  subst he
  exact ⟨rfl, rfl, append_cancel_left hrest⟩

theorem FirstEnd.ne_nil {m : Bool} (hwaits : ¬ p.Waits (opening m ++ (a ++ (e ++ b)))) (hnil : opening m ++ a = []) : b ≠ [] := by
  rintro rfl
  rw [← append_assoc, hnil] at hwaits
  exact hwaits (waits_of_isPrefix (end_mem_tokens h.mem) (by simp))

/-- What has arrived contains the first end token, or the parser withholds the part that may begin it. -/
theorem FirstEnd.cases {first rest : Text} (htext : first ++ rest = a ++ (e ++ b)) :
    (∃ b₁, first = a ++ (e ++ b₁) ∧ b₁ ++ rest = b) ∨
      p.NoEnd first ∧ ∃ a', a = (withhold '<' p.ends first).1 ++ a' ∧
        (withhold '<' p.ends first).2 ++ rest = a' ++ (e ++ b) ∧ p.FirstEnd a' e := by
  by_cases hin : ∃ e' ∈ p.ends, e' <:+: first
  · obtain ⟨a', e', b', rfl, h'⟩ := exists_firstEnd hin
    rw [append_assoc, append_assoc] at htext
    obtain ⟨rfl, rfl, rfl⟩ := h'.unique h htext
    exact .inl ⟨b', rfl, rfl⟩
  · have hnone : p.NoEnd first := fun e' he' hin' => hin ⟨e', he', hin'⟩
    rw [← withhold_eq '<' p.ends first, append_assoc] at htext
    obtain ⟨a', rfl⟩ := (withheld_withhold h.mem (ends_marked h.mem) (hnone e h.mem)).occurrence htext
    refine .inr ⟨hnone, a', rfl, ?_, h.mem, fun e' he' hin' => ?_⟩
    · rw [append_assoc] at htext
      exact append_cancel_left htext
    · exact h.absent e' he' (hin'.trans (suffix_append _ _).isInfix)

/-- What is emitted after the reasoning, if `b` arrives with the end token and the rest later. -/
def tail (p : ThinkParser) (e b : Text) (rest : List Text) : ReasoningParserResult :=
  inBlock false (p.after e b).1 ++ p.emitted ⟨false, (p.after e b).2⟩ rest

theorem think_tail (b : Text) (rest : List Text) :
    p.thinks (a ++ (e ++ b)) rest = inBlock true a ++ p.tail e b rest := by
  rw [thinks, think_firstEnd h, tail, ← join_assoc]
  simp [inBlock]

/-- In a reasoning block that ends with `e`, the reasoning is emitted, and then what follows. -/
theorem exists_tail (htext : buffer ++ deltas.flatten = a ++ (e ++ b)) (hbuffer : p.Waits buffer)
    (hlast : b = [] → finish ⟨true, e⟩ = p.tail e [] []) :
    ∃ b₁ rest, b₁ ++ flatten rest = b ∧ p.emitted ⟨true, buffer⟩ deltas = inBlock true a ++ p.tail e b₁ rest := by
  induction deltas generalizing a buffer with
  | nil =>
    -- the whole text stands in the buffer, so it is the end token alone
    rw [flatten_nil, append_nil] at htext
    subst htext
    have ha : a = [] := by
      by_contra hne
      exact not_waits_append hne (ends_marked h.mem) b hbuffer
    have hb : b = [] := by
      by_contra hne
      exact not_waits_token (end_mem_tokens h.mem) hne (by simpa [ha] using hbuffer)
    subst ha hb
    exact ⟨[], [], rfl, by simpa using hlast rfl⟩
  | cons delta deltas ih =>
    rw [flatten_cons, ← append_assoc] at htext
    by_cases hdelta : p.Waits (buffer ++ delta)
    · rw [emitted_waits hdelta]
      exact ih h htext hdelta
    rw [emitted_think hdelta]
    rcases h.cases htext with ⟨b₁, hfirst, hb⟩ | ⟨hnone, a', rfl, hrest, h'⟩
    · exact ⟨b₁, deltas, hb, by rw [hfirst, think_tail h]⟩
    · obtain ⟨b₁, rest, hb, heq⟩ := ih h' hrest (waits_withhold p.ends_subset _)
      exact ⟨b₁, rest, hb, by rw [thinks, think_of_no_end hnone, heq, ← join_assoc, inBlock_append]⟩

/-- All ways in which the text `b` behind the end token may arrive are emitted alike. With nothing before the token,
some of `b` arrives with it, as the parser waits on the token alone. -/
def TailAgree (p : ThinkParser) (e lead b : Text) : Prop :=
  ∀ b₁ rest b₂ rest', b₁ ++ flatten rest = b → b₂ ++ flatten rest' = b → (lead = [] → b₁ ≠ []) →
    (lead = [] → b₂ ≠ []) → p.tail e b₁ rest = p.tail e b₂ rest'

theorem agree_firstEnd {m : Bool} (hwaits : ¬ p.Waits (opening m ++ (a ++ (e ++ b))))
    (hlast : b = [] → finish ⟨true, e⟩ = p.tail e [] []) :
    p.Agree m (opening m ++ (a ++ (e ++ b))) ↔ p.TailAgree e (opening m ++ a) b := by
  rw [agree_opening hwaits]
  constructor
  · intro hall b₁ rest b₂ rest' hb₁ hb₂ hne₁ hne₂
    have hcut : ∀ b₁, (opening m ++ a = [] → b₁ ≠ []) → ¬ p.Waits (opening m ++ (a ++ (e ++ b₁))) := by
      intro b₁ hne
      rw [← append_assoc]
      by_cases hnil : opening m ++ a = []
      · rw [hnil, nil_append]
        exact not_waits_token (end_mem_tokens h.mem) (hne hnil)
      · exact not_waits_append hnil (ends_marked h.mem) b₁
    have heq := hall _ rest _ rest' (by simp [← hb₁]) (by simp [← hb₂]) (hcut b₁ hne₁) (hcut b₂ hne₂)
    rw [think_tail h, think_tail h] at heq
    exact append_cancel_left heq
  · intro hall first rest first' rest' htext htext' hne hne'
    have hone : ∀ first rest, first ++ .flatten rest = a ++ (e ++ b) → ¬ p.Waits (opening m ++ first) →
        ∃ b₁ rest', b₁ ++ .flatten rest' = b ∧ (opening m ++ a = [] → b₁ ≠ []) ∧
          p.thinks first rest = inBlock true a ++ p.tail e b₁ rest' := by
      intro first rest htext hne
      rcases h.cases htext with ⟨b₁, rfl, hb⟩ | ⟨hnone, a', ha, hrest, h'⟩
      · exact ⟨b₁, rest, hb, h.ne_nil hne, think_tail h b₁ rest⟩
      · obtain ⟨b₁, rest', hb, heq⟩ := exists_tail h' hrest (waits_withhold p.ends_subset _) hlast
        refine ⟨b₁, rest', hb, ?_, by rw [thinks, think_of_no_end hnone, heq, ← join_assoc, ha, inBlock_append]⟩
        -- a text that begins with the end token but does not contain it is a beginning of the token
        intro hnil
        obtain ⟨hm, rfl⟩ := append_eq_nil_iff.1 hnil
        have hpre : first <+: e ++ b := ⟨rest.flatten, htext⟩
        rcases prefix_or_prefix_of_prefix hpre (prefix_append e b) with hgrow | hin
        · exact absurd (waits_of_isPrefix (end_mem_tokens h.mem) hgrow) (by simpa [hm] using hne)
        · exact absurd hin.isInfix (hnone e h.mem)
    obtain ⟨b₁, r₁, hb₁, hne₁, heq₁⟩ := hone first rest htext hne
    obtain ⟨b₂, r₂, hb₂, hne₂, heq₂⟩ := hone first' rest' htext' hne'
    rw [heq₁, heq₂, hall b₁ r₁ b₂ r₂ hb₁ hb₂ hne₁ hne₂]

omit h

/-! ### What the cuts can lose -/

theorem content_think_le (text : Text) : (p.thinks text []).content.length ≤ text.length := by
  by_cases hend : ∃ e ∈ p.ends, e <:+: text
  · obtain ⟨a, e, b, rfl, h⟩ := exists_firstEnd hend
    have hlen := p.after_length e b
    have hfin : (finish ⟨false, (p.after e b).2⟩).content.length ≤ (p.after e b).2.length := by
      unfold finish
      split <;> simp [inBlock]
    simp only [thinks, think_firstEnd h, emitted_nil, content_append, length_append] at hfin ⊢
    omega
  · rw [think_whole fun e he hin => hend ⟨e, he, hin⟩]
    simp [inBlock]

theorem content_start_le (text : Text) : (p.emitted ⟨false, []⟩ [reasoningStart ++ text]).content.length ≤ text.length := by
  by_cases hnil : text = []
  · subst hnil
    rw [emitted_of_waits (waits_of_isPrefix p.start_mem (by simp))]
    decide
  · have hwaits : ¬ p.Waits (opening false ++ text) := not_waits_token p.start_mem hnil
    rw [show reasoningStart = opening false from rfl, emitted_opening_cons hwaits]
    exact content_think_le text

theorem emitted_reasoningEnd : p.emitted ⟨false, []⟩ [reasoningEnd] = {} :=
  (emitted_of_waits (waits_of_isPrefix (end_mem_tokens p.end_mem) (by simp))).trans (by decide)

/-- Neither tag can be taken for one where the text is content. -/
def Quiet (text : Text) : Prop := ¬ reasoningStart <:+: text ∧ ¬ reasoningEnd <:+ text

theorem Quiet.of_suffix (h : Quiet b) (hab : a <:+ b) : Quiet a :=
  ⟨fun hin => h.1 (hin.trans hab.isInfix), fun hs => h.2 (hs.trans hab)⟩

/-- What of `b` may arrive later than the end token before it. -/
def later (lead b : Text) : Text := if lead = [] then b.tail else b

/-- Where what follows the end token is emitted as it is, the cuts agree if the later deltas cannot contain a tag. -/
theorem tailAgree_iff {x lead : Text} (hafter : ∀ b, p.after e b = (x ++ b, [])) (hb : lead = [] → b ≠ [])
    (hquiet : ∀ deltas, Quiet (flatten deltas) → p.emitted ⟨false, []⟩ deltas = inBlock false (flatten deltas)) :
    p.TailAgree e lead b ↔ Quiet (later lead b) := by
  constructor
  · intro hall
    -- against the whole text in one delta, a tag that arrives alone is lost
    have hlost : ∀ y z, later lead b = y ++ z → z.length ≤ (p.emitted ⟨false, []⟩ [z]).content.length := by
      intro y z hyz
      obtain ⟨b₁, hsplit, hne⟩ : ∃ b₁, b₁ ++ z = b ∧ (lead = [] → b₁ ≠ []) := by
        by_cases hlead : lead = []
        · obtain ⟨c, b, rfl⟩ := exists_cons_of_ne_nil (hb hlead)
          exact ⟨c :: y, by simpa [later, hlead] using hyz.symm, by simp⟩
        · exact ⟨y, by simpa [later, hlead] using hyz.symm, fun h => absurd h hlead⟩
      have heq := hall b [] b₁ [z] (by simp) (by simpa using hsplit) hb hne
      have hlen := congrArg (fun r => r.content.length) heq
      simp [tail, hafter, inBlock, ← hsplit] at hlen
      omega
    constructor
    · rintro ⟨y, z, hyz⟩
      have hle := hlost y (reasoningStart ++ z) (by rw [← hyz, append_assoc])
      have hlt := content_start_le (p := p) z
      rw [length_append] at hle
      exact absurd (hle.trans hlt) (by simp [reasoningStart])
    · rintro ⟨y, hy⟩
      have hle := hlost y reasoningEnd hy.symm
      rw [emitted_reasoningEnd] at hle
      exact absurd hle (by decide)
  · intro h
    have hone : ∀ b₁ rest, b₁ ++ .flatten rest = b → (lead = [] → b₁ ≠ []) → p.tail e b₁ rest = inBlock false (x ++ b) := by
      rintro b₁ rest rfl hne
      have hsuffix : .flatten rest <:+ later lead (b₁ ++ .flatten rest) := by
        by_cases hlead : lead = []
        · obtain ⟨c, b₁, rfl⟩ := exists_cons_of_ne_nil (hne hlead)
          simp [later, hlead]
        · simp [later, hlead]
      rw [tail, hafter, hquiet rest (h.of_suffix hsuffix), ← inBlock_append, append_assoc]
    intro b₁ rest b₂ rest' hb₁ hb₂ hne₁ hne₂
    rw [hone b₁ rest hb₁ hne₁, hone b₂ rest' hb₂ hne₂]

/-- The texts on which all cuts agree, given the texts without `<think>`, and what may follow the opening of a reasoning
block. -/
def CutInvariant (p : ThinkParser) (content : Text → Prop) (body : Bool → Text → Prop) (reasoningAtStart : Bool)
    (text : Text) : Prop :=
  p.Waits text ∨ (reasoningAtStart = false ∧ ¬ reasoningStart <:+: text ∧ content text) ∨
    ∃ rest, text = opening reasoningAtStart ++ rest ∧ body reasoningAtStart rest

/-- The cases of a text: it opens a reasoning block at once, or later, or not at all. -/
theorem agree_iff_cutInvariant {content : Text → Prop} {body : Bool → Text → Prop}
    (hcontent : ∀ text, ¬ p.Waits text → ¬ reasoningStart <:+: text → (p.Agree false text ↔ content text))
    (hlate : ∀ u text, u ≠ [] → ¬ reasoningStart <:+: u → ¬ p.Agree false (u ++ (reasoningStart ++ text)))
    (hbody : ∀ m rest, ¬ p.Waits (opening m ++ rest) → (p.Agree m (opening m ++ rest) ↔ body m rest))
    (m : Bool) (text : Text) : p.Agree m text ↔ p.CutInvariant content body m text := by
  by_cases hwaits : p.Waits text
  · exact iff_of_true (agree_of_waits hwaits) (.inl hwaits)
  by_cases hopening : opening m <+: text
  · obtain ⟨rest, rfl⟩ := hopening
    rw [hbody m rest hwaits]
    constructor
    · exact fun h => .inr (.inr ⟨rest, rfl, h⟩)
    · rintro (h | ⟨rfl, hstart, -⟩ | ⟨rest', heq, h⟩)
      · exact absurd h hwaits
      · exact absurd (prefix_append _ _).isInfix hstart
      · exact append_cancel_left heq ▸ h
  · cases m with
    | true => exact absurd nil_prefix hopening
    | false =>
      have hnot : ¬ ∃ rest, text = opening false ++ rest ∧ body false rest := by
        rintro ⟨rest, rfl, -⟩
        exact hopening (prefix_append _ _)
      simp only [CutInvariant, hwaits, hnot]
      by_cases hstart : reasoningStart <:+: text
      · obtain ⟨u, rest, rfl, hu⟩ := exists_first (by decide) hstart
        have hne : u ≠ [] := by
          rintro rfl
          exact hopening (prefix_append _ _)
        simp [hlate u rest hne hu]
      · simp [hcontent text hwaits hstart, hstart]

end ThinkParser

end TrtLlm.LlmApi
