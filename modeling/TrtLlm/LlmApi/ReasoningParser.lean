import TrtLlm.Lib.TextSearch

/-!
# Reasoning parsers

A reasoning parser splits the text a model generates into reasoning and visible content. It works on the whole text
(`parse`), or on the text as it streams in: `parse_delta` for each piece and `finish` at the end, where the text not yet
attributed waits in a buffer.
-/

namespace TrtLlm.LlmApi

open TextSearch

abbrev Text := List Char

structure ReasoningParserResult where
  content : Text := []
  reasoningContent : Text := []
deriving DecidableEq, Repr

namespace ReasoningParserResult

instance : Append ReasoningParserResult where
  append r s := ⟨r.content ++ s.content, r.reasoningContent ++ s.reasoningContent⟩

@[simp] theorem mk_append_mk (c r c' r' : Text) : (⟨c, r⟩ ++ ⟨c', r'⟩ : ReasoningParserResult) = ⟨c ++ c', r ++ r'⟩ := rfl

@[simp] theorem content_append (r s : ReasoningParserResult) : (r ++ s).content = r.content ++ s.content := rfl

theorem join_assoc (r s t : ReasoningParserResult) : r ++ s ++ t = r ++ (s ++ t) := by
  cases r; cases s; cases t
  simp

theorem append_cancel_left {r s t : ReasoningParserResult} (h : r ++ s = r ++ t) : s = t := by
  cases r; cases s; cases t
  simpa using h

@[simp] theorem empty_append (r : ReasoningParserResult) : (⟨[], []⟩ : ReasoningParserResult) ++ r = r := rfl

def inBlock (inReasoning : Bool) (text : Text) : ReasoningParserResult :=
  if inReasoning then { reasoningContent := text } else { content := text }

theorem inBlock_append (inReasoning : Bool) (a b : Text) :
    inBlock inReasoning (a ++ b) = inBlock inReasoning a ++ inBlock inReasoning b := by
  cases inReasoning <;> simp [inBlock]

@[simp] theorem inBlock_nil (inReasoning : Bool) : inBlock inReasoning [] = ⟨[], []⟩ := by
  cases inReasoning <;> rfl

end ReasoningParserResult

open ReasoningParserResult

structure ParserState where
  inReasoning : Bool
  buffer : Text := []
deriving DecidableEq, Repr

/-- All deltas and then the end of the stream: everything emitted, concatenated. -/
def stream (parseDelta : ParserState → Text → ReasoningParserResult × ParserState)
    (finish : ParserState → ReasoningParserResult) : ParserState → List Text → ReasoningParserResult
  | s, [] => finish s
  | s, delta :: deltas => (parseDelta s delta).1 ++ stream parseDelta finish (parseDelta s delta).2 deltas

namespace Gemma4

def CHANNEL_OPEN : Text := ['<', '|', 'c', 'h', 'a', 'n', 'n', 'e', 'l', '>']

def CHANNEL_CLOSE : Text := ['<', 'c', 'h', 'a', 'n', 'n', 'e', 'l', '|', '>']

variable (inReasoning : Bool)

def delimiter : Text := if inReasoning then CHANNEL_CLOSE else CHANNEL_OPEN

theorem delimiter_length : (delimiter inReasoning).length = 10 := by
  cases inReasoning <;> rfl

variable {text buf tag : Text} {b : Bool}

theorem drop_lt_of_find {i : ℕ} (h : find (delimiter inReasoning) text = some i) :
    (text.drop (i + (delimiter inReasoning).length)).length < text.length := by
  have hle := find_le h
  rw [List.length_drop, delimiter_length] at *
  omega

/-- The loop of `parse`, at the index where `text` starts. -/
def parse (text : Text) : ReasoningParserResult :=
  if text = [] then {} else
  match _hopen : find CHANNEL_OPEN text with
  | none => { content := text }
  | some openIdx =>
    let body := text.drop (openIdx + CHANNEL_OPEN.length)
    match _hclose : find CHANNEL_CLOSE body with
    | none => { content := text.take openIdx, reasoningContent := body }
    | some closeIdx =>
      { content := text.take openIdx, reasoningContent := body.take closeIdx } ++
        parse (body.drop (closeIdx + CHANNEL_CLOSE.length))
termination_by text.length
decreasing_by exact (drop_lt_of_find true _hclose).trans (drop_lt_of_find false _hopen)

/-- `_partial_suffix_len`, from the length `k` down. -/
def partialSuffixLenFrom (buf tag : Text) : ℕ → ℕ
  | 0 => 0
  | k + 1 => if buf.drop (buf.length - (k + 1)) <+: tag then k + 1 else partialSuffixLenFrom buf tag k

def partialSuffixLen (buf tag : Text) : ℕ := partialSuffixLenFrom buf tag (min buf.length (tag.length - 1))

/-- The loop of `parse_delta` on the buffer. -/
def drain (inReasoning : Bool) (buffer : Text) : ReasoningParserResult × ParserState :=
  match _hfind : find (delimiter inReasoning) buffer with
  | none =>
    let emitLen := buffer.length - partialSuffixLen buffer (delimiter inReasoning)
    (inBlock inReasoning (buffer.take emitLen), { inReasoning, buffer := buffer.drop emitLen })
  | some idx =>
    let rest := drain (!inReasoning) (buffer.drop (idx + (delimiter inReasoning).length))
    (inBlock inReasoning (buffer.take idx) ++ rest.1, rest.2)
termination_by buffer.length
decreasing_by exact drop_lt_of_find inReasoning _hfind

def parseDelta (s : ParserState) (deltaText : Text) : ReasoningParserResult × ParserState :=
  drain s.inReasoning (s.buffer ++ deltaText)

def finish (s : ParserState) : ReasoningParserResult :=
  if s.buffer = [] then {} else inBlock s.inReasoning s.buffer

/-- What the whole of `text` reads as, for a parser that is in a block of the given kind. -/
def scan (inReasoning : Bool) (text : Text) : ReasoningParserResult :=
  match _hfind : find (delimiter inReasoning) text with
  | none => inBlock inReasoning text
  | some idx =>
    inBlock inReasoning (text.take idx) ++ scan (!inReasoning) (text.drop (idx + (delimiter inReasoning).length))
termination_by text.length
decreasing_by exact drop_lt_of_find inReasoning _hfind

theorem scan_of_none (h : find (delimiter b) text = none) : scan b text = inBlock b text := by
  rw [scan]
  split <;> simp_all

theorem scan_of_some {idx : ℕ} (h : find (delimiter b) text = some idx) :
    scan b text = inBlock b (text.take idx) ++ scan (!b) (text.drop (idx + (delimiter b).length)) := by
  rw [scan]
  split <;> simp_all

theorem parse_eq_scan (text : Text) : parse text = scan false text := by
  fun_induction parse text with
  | case1 => exact (scan_of_none (b := false) rfl).symm
  | case2 text _ hopen => exact (scan_of_none (b := false) hopen).symm
  | case3 text _ openIdx hopen body hclose =>
    have hbody : scan true body = inBlock true body := scan_of_none hclose
    rw [scan_of_some (b := false) hopen]
    change _ = _ ++ scan true body
    simp [hbody, inBlock]
  | case4 text _ openIdx hopen body closeIdx hclose ih =>
    have hbody : scan true body = inBlock true (body.take closeIdx) ++
        scan false (body.drop (closeIdx + CHANNEL_CLOSE.length)) := scan_of_some hclose
    rw [scan_of_some (b := false) hopen]
    change _ = _ ++ scan true body
    rw [hbody, ih, ← join_assoc]
    simp [inBlock]

theorem le_partialSuffixLenFrom {m n : ℕ} (hmn : m ≤ n)
    (hm : buf.drop (buf.length - m) <+: tag) : m ≤ partialSuffixLenFrom buf tag n := by
  induction n with
  | zero => exact hmn
  | succ k ih =>
    by_cases hk : buf.drop (buf.length - (k + 1)) <+: tag
    · simpa only [partialSuffixLenFrom, hk, if_true] using hmn
    · have hne : m ≠ k + 1 := fun h => hk (h ▸ hm)
      simpa only [partialSuffixLenFrom, hk, if_false] using ih (by omega)

/-- What the parser holds back is all that could still grow into the tag. -/
theorem withheld_partialSuffixLen (habsent : ¬ tag <:+: buf) :
    Withheld tag (buf.take (buf.length - partialSuffixLen buf tag)) (buf.drop (buf.length - partialSuffixLen buf tag)) := by
  refine ⟨by rwa [List.take_append_drop], fun rest hsuffix hgrow => ?_⟩
  rw [List.take_append_drop] at hsuffix
  have hproper : rest.length ≠ tag.length := fun h =>
    habsent (hgrow.eq_of_length h ▸ hsuffix.isInfix)
  have hshort := hgrow.length_le
  have hfits := hsuffix.length_le
  have hrest : buf.drop (buf.length - rest.length) = rest := (List.suffix_iff_eq_drop.1 hsuffix).symm
  have hlong : rest.length ≤ partialSuffixLen buf tag := le_partialSuffixLenFrom (by omega) (by rwa [hrest])
  rw [List.length_drop]
  omega

/-- Draining the buffer emits what a reader of the whole text emits first, and keeps the rest to be read. -/
theorem scan_drain (buffer more : Text) :
    scan inReasoning (buffer ++ more) = (drain inReasoning buffer).1 ++
      scan (drain inReasoning buffer).2.inReasoning ((drain inReasoning buffer).2.buffer ++ more) := by
  fun_induction drain inReasoning buffer with
  | case1 b buffer hnone emitLen =>
    have hheld := withheld_partialSuffixLen (find_eq_none.1 hnone)
    have hfind := hheld.find_append more
    have htext : buffer ++ more = buffer.take emitLen ++ (buffer.drop emitLen ++ more) := by
      rw [← List.append_assoc, List.take_append_drop]
    cases hrest : find (delimiter b) (buffer.drop emitLen ++ more) with
    | none =>
      rw [scan_of_none hrest, htext, scan_of_none (by rw [hfind, hrest]; rfl), inBlock_append]
    | some idx =>
      rw [scan_of_some hrest, htext, scan_of_some (by rw [hfind, hrest]; rfl), ← join_assoc, ← inBlock_append,
        List.take_length_add_append, Nat.add_assoc, List.drop_length_add_append]
  | case2 b buffer idx hfind rest ih =>
    rw [scan_of_some (find_append_right hfind more), join_assoc, ← ih]
    have hle := find_le hfind
    rw [List.take_append_of_le_length (by omega), List.drop_append_of_le_length (by omega)]

theorem find_drain (buffer : Text) :
    find (delimiter (drain inReasoning buffer).2.inReasoning) (drain inReasoning buffer).2.buffer = none := by
  fun_induction drain inReasoning buffer with
  | case1 b buffer hnone emitLen =>
    rw [find_eq_none] at hnone ⊢
    exact fun h => hnone (h.trans (List.drop_suffix _ _).isInfix)
  | case2 b buffer idx hfind rest ih => exact ih

theorem stream_eq_scan (s : ParserState) (deltas : List Text) (hs : find (delimiter s.inReasoning) s.buffer = none) :
    stream parseDelta finish s deltas = scan s.inReasoning (s.buffer ++ deltas.flatten) := by
  induction deltas generalizing s with
  | nil =>
    rw [List.flatten_nil, List.append_nil, scan_of_none hs]
    by_cases hnil : s.buffer = [] <;> simp [stream, finish, hnil]
  | cons delta deltas ih =>
    rw [stream, parseDelta, ih _ (find_drain _ _), ← scan_drain, List.flatten_cons, List.append_assoc]

/-- Streaming in any deltas emits, concatenated, the content and the reasoning of `parse` on the whole text. -/
theorem stream_eq_parse (deltas : List Text) :
    stream parseDelta finish { inReasoning := false } deltas = parse deltas.flatten := by
  rw [stream_eq_scan _ _ rfl, parse_eq_scan]
  rfl

end Gemma4
end TrtLlm.LlmApi
