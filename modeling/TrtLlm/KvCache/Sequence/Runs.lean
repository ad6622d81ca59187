import TrtLlm.KvCache.Sequence.Resume

/-!
# Runs of calls on one cache

A cache is created, perhaps from a match, and then called. Every call keeps the invariant, and needed pages go missing
only where a call moves the history over scratch blocks. Without scratch reuse all pages in use are there in every state
reached; with it, under a condition on the history.
-/

namespace TrtLlm.KvCache.KVCache

open List

variable {τ : Type} {M : KVCacheManager} {s t : KVCache τ}

theorem getMatchedTokens_spec (hpos : 0 < M.tokensPerBlock) (blocks : List (MatchedBlock τ))
    (hfull : ∀ block ∈ blocks.dropLast, block.tokens.length = M.tokensPerBlock)
    (hle : ∀ block ∈ blocks, block.tokens.length ≤ M.tokensPerBlock) {n : Nat} {tokens : List τ}
    (h : getMatchedTokens blocks n = some tokens) :
    tokens.length = n ∧ blocks.length = divUp n M.tokensPerBlock := by
  induction blocks generalizing n tokens with
  | nil =>
    unfold getMatchedTokens at h
    split at h
    · rename_i hzero
      subst hzero
      cases h
      refine ⟨rfl, ?_⟩
      rw [divUp_of_mod_eq_zero hpos (Nat.zero_mod _), Nat.zero_div]
      rfl
    · cases h
  | cons block rest ih =>
    unfold getMatchedTokens at h
    split at h
    · obtain ⟨more, hmore, rfl⟩ := Option.map_eq_some_iff.1 h
      have hlen := hle block (.head _)
      cases rest with
      | nil =>
        unfold getMatchedTokens at hmore
        split at hmore
        · cases hmore
          have hn : n ≤ block.tokens.length := by omega
          refine ⟨by simp [hn], ?_⟩
          symm
          apply Nat.div_eq_of_lt_le <;> simp <;> omega
        · cases hmore
      | cons next rest =>
        have hblock : block.tokens.length = M.tokensPerBlock := hfull block (by simp)
        obtain ⟨hcount, hblocks⟩ := ih (fun b hb => hfull b (by simp [hb])) (fun b hb => hle b (by simp [hb])) hmore
        have hmorePos : 0 < n - min n block.tokens.length := by
          unfold getMatchedTokens at hmore
          split at hmore
          · assumption
          · cases hmore
        rw [hblock] at hcount hmorePos hblocks
        have hgt : M.tokensPerBlock < n := by omega
        rw [min_eq_right hgt.le] at hcount hblocks
        constructor
        · rw [length_append, length_take]
          omega
        · rw [length_cons, hblocks]
          unfold divUp
          rw [show n + M.tokensPerBlock - 1 = n - M.tokensPerBlock + M.tokensPerBlock - 1 + M.tokensPerBlock by omega,
            Nat.add_div_right _ hpos]
    · cases h

def matched (M : KVCacheManager) (found : SequenceMatch τ M.tokensPerBlock) (tokens : List τ) (ssm : Option BlockPage) :
    KVCache τ :=
  { (empty M : KVCache τ) with
    capacity := found.numTokens
    historyLength := found.numTokens
    blocks := found.blocks.mapIdx fun ordinal _ =>
      ⟨fun lc => if M.isAttention lc && decide (ordinal ∈ liveOrdinals found.blocks.length
        (M.staleRange lc found.numTokens)) then some ⟨true, none⟩ else none, true⟩
    basePageIndices := fun _ => List.replicate found.blocks.length badPageIndex
    committedTokens := tokens
    numCommittedBlocks := tokens.length / M.tokensPerBlock
    ssmBlock := ssm }

theorem setupForReuse_ok {found : SequenceMatch τ M.tokensPerBlock} (h : setupForReuse M found = .ok s) :
    ∃ tokens ssm, getMatchedTokens found.blocks found.numTokens = some tokens ∧ s = matched M found tokens ssm ∧
      (M.hasSsm = true → found.blocks ≠ [] → ssm ≠ none) := by
  unfold setupForReuse at h
  cases htokens : getMatchedTokens found.blocks found.numTokens with
  | none =>
    rw [htokens] at h
    cases h
  | some tokens =>
    rw [htokens] at h
    simp only [bind, Except.bind, pure, Except.pure] at h
    split at h
    · cases h
    by_cases hssm : M.hasSsm = true ∧ found.blocks ≠ []
    · rw [if_pos hssm] at h
      split at h
      · cases h
      · cases h
        exact ⟨tokens, _, rfl, rfl, fun _ _ => nofun⟩
    · rw [if_neg hssm] at h
      cases h
      exact ⟨tokens, _, rfl, rfl, fun hhas hne => absurd ⟨hhas, hne⟩ hssm⟩

section Matched

variable {found : SequenceMatch τ M.tokensPerBlock} {tokens : List τ} {ssm : Option BlockPage} {i : Nat} {lc : LifeCycleId}

theorem page_matched (hi : i < found.blocks.length) :
    (matched M found tokens ssm).page i lc =
      if M.isAttention lc = true ∧ i ∉ M.staleRange lc found.numTokens then some ⟨true, none⟩ else none := by
  have hblock : (matched M found tokens ssm).blocks[i]? = some ⟨fun lc => if M.isAttention lc &&
      decide (i ∈ liveOrdinals found.blocks.length (M.staleRange lc found.numTokens)) then some ⟨true, none⟩ else none,
      true⟩ := by
    show (found.blocks.mapIdx _)[i]? = _
    rw [getElem?_mapIdx, getElem?_eq_getElem hi]
    rfl
  rw [page_of_getElem? hblock]
  apply if_congr _ rfl rfl
  rw [Bool.and_eq_true, decide_eq_true_iff]
  apply and_congr_right
  unfold liveOrdinals
  rw [mem_append, mem_range, mem_range'_1, HalfOpenRange.mem_iff]
  omega

theorem page_matched_cases {p : BlockPage} (hp : (matched M found tokens ssm).page i lc = some p) :
    i < found.blocks.length ∧ M.isAttention lc = true ∧ i ∉ M.staleRange lc found.numTokens ∧ p = ⟨true, none⟩ := by
  have hi : i < found.blocks.length := by simpa [matched] using lt_length_of_page hp
  rw [page_matched hi] at hp
  split at hp
  · rename_i hboth
    cases hp
    exact ⟨hi, hboth.1, hboth.2, rfl⟩
  · cases hp

theorem matched_sound (htokens : tokens.length = found.numTokens)
    (hblocks : found.blocks.length = divUp found.numTokens M.tokensPerBlock)
    (hssm : M.hasSsm = true → found.blocks ≠ [] → ssm ≠ none) :
    (matched M found tokens ssm).Sound M ∧ (matched M found tokens ssm).Present M := by
  have hlength : (matched M found tokens ssm).blocks.length = found.blocks.length := by simp [matched]
  have hcommitted : ∀ i, i < found.blocks.length → (matched M found tokens ssm).isCommitted i = true := by
    intro i hi
    unfold isCommitted
    rw [show (matched M found tokens ssm).blocks[i]? = _ from getElem?_eq_getElem (hlength ▸ hi)]
    simp [matched]
  have hcore : (matched M found tokens ssm).Core M :=
    { isOpen := nofun
      tabled := fun lc => by
        apply ext_getElem?
        intro i
        show (replicate _ _)[i]? = _
        rw [getElem?_map]
        by_cases hi : i < found.blocks.length
        · have hbad : basePageIndex ((matched M found tokens ssm).page i lc) = badPageIndex := by
            rw [page_matched hi]
            split <;> rfl
          have hget := getElem?_eq_getElem (hlength ▸ hi)
          rw [getElem?_replicate_of_lt hi, hget, Option.map_some, ← page_of_getElem? hget, hbad]
        · have hge := not_lt.1 hi
          rw [getElem?_eq_none (by simpa using hge), getElem?_eq_none (hlength ▸ hge)]
          rfl
      history_le := le_rfl
      length_blocks := hlength.trans hblocks
      attention := fun i lc p hp => (page_matched_cases hp).2.1
      locked := nofun
      unlocked := fun i lc p hp _ => by
        obtain ⟨-, -, -, rfl⟩ := page_matched_cases hp
        rfl
      stale_committed := fun i lc _ hmem _ => by
        cases hp : (matched M found tokens ssm).page i lc with
        | none => rfl
        | some p => exact absurd hmem (page_matched_cases hp).2.2.1
      kind := fun i lc p hp => by
        obtain ⟨hi, -, -, rfl⟩ := page_matched_cases hp
        exact (hcommitted i hi).symm
      uncommitted := nofun
      suspended_of_never := fun _ => rfl
      capacity_of_never := fun _ => htokens.symm
      blocks_of_never := fun _ => le_rfl
      committed_of_never := fun _ i hi => hcommitted i (hlength ▸ hi)
      not_virtualStop := nofun }
  refine ⟨⟨hcore, htokens.le, nofun, fun _ _ _ => rfl, ?_⟩, ?_⟩
  · intro _ hhas hzero
    apply hssm hhas
    intro hempty
    apply hzero
    show tokens.length = 0
    rw [hempty, length_nil] at hblocks
    have hge := divUp_mul_ge found.numTokens M.tokensPerBlock_pos
    rw [← hblocks] at hge
    omega
  · intro i lc hi hattn hlive _
    rw [page_matched (hlength ▸ hi), if_pos ⟨hattn, hlive⟩]
    exact nofun

end Matched

theorem create_sound {found : Option (SequenceMatch τ M.tokensPerBlock)} (hrun : create M found = .ok s) :
    s.Sound M ∧ s.Present M ∧ s.enableSwaScratchReuse = M.swaScratchReuse.isSome := by
  cases found with
  | none =>
    cases hrun
    -- a cache without a match is the cache of the match without tokens
    have hempty : (empty M : KVCache τ) = matched M ⟨[], 0, nofun, nofun⟩ [] none := by
      unfold matched empty
      simp
    have hzero : divUp 0 M.tokensPerBlock = 0 := by
      rw [divUp_of_mod_eq_zero M.tokensPerBlock_pos (Nat.zero_mod _), Nat.zero_div]
    rw [hempty]
    have hsound : (matched M ⟨[], 0, nofun, nofun⟩ ([] : List τ) none).Sound M ∧ _ :=
      matched_sound rfl hzero.symm fun _ => absurd rfl
    exact ⟨hsound.1, hsound.2, rfl⟩
  | some found =>
    obtain ⟨tokens, ssm, htokens, rfl, hssm⟩ := setupForReuse_ok hrun
    obtain ⟨hcount, hblocks⟩ := getMatchedTokens_spec M.tokensPerBlock_pos found.blocks found.full found.length_le htokens
    have hsound := matched_sound hcount hblocks hssm
    exact ⟨hsound.1, hsound.2, rfl⟩

variable {Q : PUnit → KVCache τ → Prop} {E : CacheError → KVCache τ → Prop} {success : Bool}

theorem after_of_ends (op : CacheOp τ) {P : KVCache τ → Prop} (hends : Ends (call M op s) Q E)
    (hok : ∀ a t, Q a t → P t) (herror : ∀ e t, E e t → P t) : P (after M op s) := by
  unfold after
  cases hrun : call M op s with
  | ok a t => exact hok a t (hends.ok hrun)
  | error e t => exact herror e t (hends.error hrun)

theorem Ends.refused {α : Type} {condition : Bool} {error : CacheError} {f : PUnit → CacheM τ α}
    {Q : α → KVCache τ → Prop} (hcondition : condition = false) :
    Ends ((checkCache condition error >>= f) s) Q fun _ t => t = s :=
  Ends.check (fun _ => rfl) fun h => by rw [hcondition] at h; cases h

theorem after_of_closed (hclosed : s.status = .closed) (op : CacheOp τ) : after M op s = s := by
  have hactive : decide (s.status = .active) = false := by
    rw [hclosed]
    rfl
  have hopen : decide (s.status ≠ .closed) = false := by
    rw [hclosed]
    rfl
  have hresize : ∀ ans capacity historyLength,
      Ends (resize M ans capacity historyLength s) (fun _ t => t = s) fun _ t => t = s := by
    intro ans capacity historyLength
    exact Ends.refused hactive
  have hstop : ∀ ans, Ends (stopCommitting M ans s) (fun _ t => t = s) fun _ t => t = s := by
    intro ans
    exact Ends.refused hopen
  have hends : Ends (call M op s) (fun _ t => t = s) (fun _ t => t = s) := by
    cases op with
    | resize ans capacity historyLength =>
      exact (hresize ans capacity historyLength).discard.mono (fun _ _ h => h.elim fun _ h => h) fun _ _ h => h
    | setHistoryLength ans historyLength =>
      refine (hresize ans none (some historyLength)).bind ?_ fun _ _ h => h
      rintro success t rfl
      cases success <;> rfl
    | commit ans tokens isEnd =>
      show Ends (commit M ans tokens isEnd s) _ _
      unfold commit
      split
      · cases isEnd with
        | false => rfl
        | true => exact hstop ans.block
      · exact Ends.refused hactive
    | stopCommitting ans => exact hstop ans
    | suspend =>
      exact Ends.refused hactive
    | resume ans =>
      have hsuspended : decide (s.status = .suspended) = false := by
        rw [hclosed]
        rfl
      have hrefused : Ends (resume M ans s) (fun _ t => t = s) fun _ t => t = s := by
        exact Ends.refused hsuspended
      exact hrefused.discard.mono (fun _ _ h => h.elim fun _ h => h) fun _ _ h => h
    | close ans =>
      show Ends (close M ans s) _ _
      rw [close, get_bind_apply, onlyWhen_of_not hopen]
      rfl
  exact after_of_ends op hends (fun _ _ h => h) fun _ _ h => h

structure Kept (M : KVCacheManager) (s t : KVCache τ) : Prop where
  sound : t.Sound M
  enable : t.enableSwaScratchReuse = s.enableSwaScratchReuse
  present_iff : t.Present M ↔ s.Present M

variable {c h : Nat} {op : CacheOp τ}

theorem ResizeOk.sound (hok : ResizeOk M s c h success t) (hsound : s.Sound M)
    (hactive : s.status = .active) (hle : s.historyLength ≤ t.historyLength) : t.Sound M := by
  refine ⟨hok.core, ?_, hok.same.ssmLive hsound.ssmLive, hok.scratchOff hsound.scratchOff, ?_⟩
  · rw [numCommittedTokens, hok.same.committedTokens]
    exact hsound.committed_le.trans hle
  · rw [hok.same.neverResumed, hsound.core.resumed hactive]
    rintro ⟨⟩

theorem ResizeOk.moved (hok : ResizeOk M s c h true t) (hsound : s.Sound M) (haccepts : s.ResizeAccepts M c h) : Moved M s t := by
  have hhistory : t.historyLength = h := hok.historyLength
  have hle : s.historyLength ≤ t.historyLength := hhistory ▸ haccepts.history
  refine ⟨hok.sound hsound haccepts.active hle, hok.same.enable, hle, ?_⟩
  rw [hhistory, hok.capacity rfl]
  exact hok.present_iff

theorem ResizeOk.kept (hok : ResizeOk M s c h false t) (hsound : s.Sound M) (hactive : s.status = .active) : Kept M s t := by
  have hhistory : t.historyLength = s.historyLength := hok.historyLength
  exact ⟨hok.sound hsound hactive hhistory.ge, hok.same.enable, hok.present_iff⟩

/-! ### Without scratch reuse -/

theorem Present.covers (hpresent : s.Present M) (henable : s.enableSwaScratchReuse = false)
    (hle : s.historyLength ≤ h) : s.Covers M h c := by
  intro i lc hi _ hattn hlive _
  exact hpresent i lc hi hattn (fun hmem => hlive (M.staleRange_mono hattn hle hmem)) (not_mem_scratchRangeAt henable)

/-- What a call needs so that it does not raise half-way: a commit fits, and the storage manager does not fail in ways
that the cache cannot undo. -/
def StepFits (M : KVCacheManager) (s : KVCache τ) : CacheOp τ → Prop
  | .resize answers capacity historyLength =>
    s.AsksSlots M (capacity.getD s.capacity) (historyLength.getD s.historyLength) → ¬ StorageFails answers
  | .commit answers tokens _ =>
    tokens ≠ [] → s.status = .active → s.commitState = .allowed → CommitFits M s answers tokens
  | _ => True

/-- Every state that is reached is closed, or sound with all pages in use. -/
def Whole (M : KVCacheManager) (s : KVCache τ) : Prop :=
  s.status = .closed ∨ (s.Sound M ∧ s.enableSwaScratchReuse = false ∧ s.Present M)

theorem Whole.moved (h : Moved M s t) (henable : s.enableSwaScratchReuse = false) (hpresent : s.Present M) :
    Whole M t :=
  .inr ⟨h.sound, h.enable.trans henable, h.present_iff.2 (hpresent.covers henable h.history_le)⟩

theorem Whole.after (hwhole : Whole M s) (hfits : s.StepFits M op) : Whole M (after M op s) := by
  rcases hwhole with hclosed | ⟨hsound, henable, hpresent⟩
  · rw [after_of_closed hclosed]
    exact .inl hclosed
  have hsame : Whole M s := .inr ⟨hsound, henable, hpresent⟩
  have hscratch : s.enableSwaScratchReuse ≠ true := by
    rw [henable]
    exact nofun
  cases op with
  | resize ans capacity historyLength =>
    apply after_of_ends (.resize ans capacity historyLength) (resize_spec hsound.core ans rfl rfl).discard
    · rintro - t ⟨success, haccepts, hok⟩
      cases success with
      | true => exact .moved (hok.moved hsound haccepts) henable hpresent
      | false =>
        have hkept := hok.kept hsound haccepts.active
        exact .inr ⟨hkept.sound, hkept.enable.trans henable, hkept.present_iff.2 hpresent⟩
    · rintro - t (⟨rfl, -⟩ | ⟨-, hslots | ⟨hasks, hfails⟩⟩)
      · exact hsame
      · exact absurd (enable_of_hasScratchSlots hsound.scratchOff hslots) hscratch
      · exact absurd hfails (hfits hasks)
  | setHistoryLength ans historyLength =>
    apply after_of_ends (.setHistoryLength ans historyLength)
      (setHistoryLength_spec hsound.core hsound.scratchOff ans historyLength)
    · rintro - t ⟨haccepts, hok⟩
      exact .moved (hok.moved hsound haccepts) henable hpresent
    · rintro - t (⟨rfl, -⟩ | hon)
      · exact hsame
      · exact absurd hon hscratch
  | commit ans tokens isEnd =>
    apply after_of_ends (.commit ans tokens isEnd) (commit_spec hsound ans tokens isEnd)
    · exact fun _ t hmoved => .moved hmoved.toMoved henable hpresent
    rintro - t (rfl | hmoved | hon | ⟨hne, hactive, hallowed, hnot⟩)
    · exact hsame
    · exact .moved hmoved henable hpresent
    · exact absurd hon hscratch
    · exact absurd (hfits hne hactive hallowed) hnot
  | stopCommitting ans =>
    apply after_of_ends (.stopCommitting ans) (stopCommitting_stayed hsound ans)
    · exact fun _ t hstayed => .moved hstayed.toMoved henable hpresent
    · rintro - t rfl
      exact hsame
  | suspend =>
    apply after_of_ends (.suspend) (suspend_spec hsound)
    · exact fun _ t hstayed => .moved hstayed.toMoved henable hpresent
    · rintro - t rfl
      exact hsame
  | resume ans =>
    apply after_of_ends (.resume ans) (resume_spec hsound ans).discard
    · rintro - t ⟨-, hstayed⟩
      exact .moved hstayed.toMoved henable hpresent
    · rintro - t (hstayed | hon | hmissing)
      · exact .moved hstayed.toMoved henable hpresent
      · exact absurd hon hscratch
      · exact absurd hpresent hmissing
  | close ans =>
    apply after_of_ends (.close ans) (close_spec hsound ans)
    · exact fun _ t hclosed => .inl hclosed
    · rintro - t rfl
      exact hsame

def Along (M : KVCacheManager) (P : KVCache τ → CacheOp τ → Prop) : List (CacheOp τ) → KVCache τ → Prop
  | [], _ => True
  | op :: ops, s => P s op ∧ Along M P ops (after M op s)

instance (P : KVCache τ → CacheOp τ → Prop) [∀ s op, Decidable (P s op)] :
    ∀ (ops : List (CacheOp τ)) (s : KVCache τ), Decidable (Along M P ops s)
  | [], _ => isTrue trivial
  | op :: ops, s =>
    have := instDecidableAlong P ops (after M op s)
    inferInstanceAs (Decidable (P s op ∧ Along M P ops (after M op s)))

theorem Along.of_mem_states {P : KVCache τ → CacheOp τ → Prop} {Q : KVCache τ → Prop}
    (hstep : ∀ s op, Q s → P s op → Q (after M op s)) {ops : List (CacheOp τ)} (hinit : Q s) (hrun : Along M P ops s) :
    ∀ t ∈ states M ops s, Q t := by
  induction ops generalizing s with
  | nil =>
    intro t ht
    rw [states, mem_singleton] at ht
    exact ht ▸ hinit
  | cons op ops ih =>
    intro t ht
    rw [states, mem_cons] at ht
    rcases ht with rfl | ht
    · exact hinit
    · exact ih (hstep s op hinit hrun.1) hrun.2 t ht

/-- The lengths are ordered, the blocks are those of the capacity, every attention block in use has a page, locked just
if the cache is active, no stale committed block has one, and the index table of an active cache shows just the locked
pages. -/
structure PagePresence (M : KVCacheManager) (s : KVCache τ) : Prop where
  committed_le : s.numCommittedTokens ≤ s.historyLength
  history_le : s.historyLength ≤ s.capacity
  length_blocks : s.blocks.length = divUp s.capacity M.tokensPerBlock
  present : ∀ i lc, i < s.blocks.length → M.isAttention lc = true → i ∉ M.staleRange lc s.historyLength →
    ∃ p, s.page i lc = some p ∧ (p.isLock = true ↔ s.status = .active)
  stale : ∀ i lc, M.isAttention lc = true → i ∈ M.staleRange lc s.historyLength → s.isCommitted i = true → s.page i lc = none
  table : s.status = .active → ∀ lc, s.basePageIndices lc =
    (List.range s.blocks.length).map fun i => ((s.page i lc).bind BlockPage.lock).elim badPageIndex fun slot => slot

theorem Whole.pagePresence (hwhole : Whole M s) (hopen : s.status ≠ .closed) : s.PagePresence M := by
  rcases hwhole with hclosed | ⟨hsound, henable, hpresent⟩
  · exact absurd hclosed hopen
  have hcore := hsound.core
  refine ⟨hsound.committed_le, hcore.history_le, hcore.length_blocks, ?_, hcore.stale_committed, ?_⟩
  · intro i lc hi hattn hlive
    obtain ⟨p, hp⟩ := Option.ne_none_iff_exists'.1 (hpresent i lc hi hattn hlive (not_mem_scratchRangeAt henable))
    refine ⟨p, hp, ?_, fun hactive => hcore.locked hactive i lc p hp hlive⟩
    intro hlock
    by_contra hactive
    rw [hcore.unlocked i lc p hp fun h => absurd h hactive] at hlock
    cases hlock
  · intro _ lc
    have htable := congrArg (fun c : KVCache τ => c.basePageIndices lc) (withPages_page hcore.tabled)
    rw [← htable]
    rfl

/-- Without scratch reuse, whatever the calls return or raise, if no commit exceeds the capacity and the storage manager
does not fail half-way. -/
theorem pagePresence_of_stepFits {found : Option (SequenceMatch τ M.tokensPerBlock)} {ops : List (CacheOp τ)}
    (hoff : M.swaScratchReuse = none) (hcreate : create M found = .ok s)
    (hrun : Along M (fun s op => s.StepFits M op) ops s) :
    ∀ t ∈ states M ops s, t.status ≠ .closed → t.PagePresence M := by
  obtain ⟨hsound, hpresent, henable⟩ := create_sound hcreate
  have hinit : Whole M s := .inr ⟨hsound, by rw [henable, hoff]; rfl, hpresent⟩
  intro t ht hopen
  exact (hrun.of_mem_states (fun s op hwhole => hwhole.after) hinit t ht).pagePresence hopen

/-- A manager with one window of two tokens, and blocks of one token. -/
def windowManager (rewind : Option Nat) : KVCacheManager where
  tokensPerBlock := 1
  tokensPerBlock_pos := Nat.one_pos
  lifeCycles := [.attn ⟨some 2, 0⟩]
  swaScratchReuse := rewind
  windows_pos := by
    intro lc w hmem hw
    rw [mem_singleton] at hmem
    cases hmem
    cases hw
    decide

def freeSlots : ResizeAnswers := ⟨.ok fun _ n => n, .ok fun i _ => i⟩

def freeToResume : ResumeAnswers := ⟨true, true, .ok fun _ n => n, .ok fun _ _ => 0⟩

def freshTree : CommitAnswers := ⟨freeSlots, fun _ => ⟨.new, .ok fun _ => 0, false⟩⟩

/-- Tokens are committed that the capacity does not hold: `commit` appends them, and then the history cannot follow. -/
theorem exists_committed_gt_history :
    ∃ t ∈ states (windowManager none) [.resume freeToResume, .commit freshTree [()] false] (empty (windowManager none)),
      t.status ≠ .closed ∧ ¬ t.numCommittedTokens ≤ t.historyLength := by
  decide +kernel

theorem exists_mem_of {ts : List (KVCache τ)} {p q : KVCache τ → Prop} (hreached : ∃ t ∈ ts, p t) (h : ∀ t ∈ ts, p t → q t) :
    ∃ t ∈ ts, q t :=
  hreached.imp fun t hp => ⟨hp.1, h t hp.1 hp.2⟩

theorem pagePresence_of_decode :
    ∃ t ∈ states (windowManager none) [.resume freeToResume, .resize freeSlots (some 4) (some 1),
      .commit freshTree [(), (), ()] false, .suspend] (empty (windowManager none)),
      t.status = .active ∧ t.historyLength = 3 ∧ t.PagePresence (windowManager none) := by
  have hsupply : ¬ StorageFails freeSlots := by
    rintro (⟨e, -, herror⟩ | ⟨herror, -⟩) <;> cases herror
  have htree : ∀ i, ¬ RebaseFails (windowManager none) (freshTree.block i) := by
    rintro i ⟨-, ⟨covers, hexisting⟩, -⟩
    cases hexisting
  apply exists_mem_of (p := fun t => t.status = .active ∧ t.historyLength = 3) (by decide +kernel)
  intro t ht ⟨hactive, hhistory⟩
  refine ⟨hactive, hhistory, ?_⟩
  apply pagePresence_of_stepFits rfl (show create _ none = .ok _ from rfl) _ t ht (by rw [hactive]; exact nofun)
  exact ⟨trivial, fun _ => hsupply, fun _ _ _ => ⟨by decide +kernel, fun i _ => htree i⟩, trivial, trivial⟩

/-! ### With scratch reuse -/

/-- With this history, at the same capacity, a scratch block without a page would be neither stale nor scratch. -/
def LeavesScratch (M : KVCacheManager) (s : KVCache τ) (h : Nat) : Prop :=
  ∃ i lc, i ∈ s.scratchRange M lc ∧ s.page i lc = none ∧ i ∉ M.staleRange lc h ∧ i ∉ s.scratchRangeAt M lc h s.capacity

/-- The history that a call asks for without changing the capacity. -/
def newHistory (s : KVCache τ) : CacheOp τ → Option Nat
  | .resize _ capacity historyLength =>
    if capacity.getD s.capacity = s.capacity then some (historyLength.getD s.historyLength) else none
  | .setHistoryLength _ historyLength => some historyLength
  | .commit _ tokens _ => some (max s.historyLength (s.numCommittedTokens + tokens.length))
  | _ => none

/-- A change of the capacity is guarded: the blocks that leave the scratch range are stale. -/
theorem Present.covers_of_accepts (hpresent : s.Present M) (haccepts : s.ResizeAccepts M c h)
    (hne : c ≠ s.capacity) : s.Covers M h c := by
  intro i lc hi _ hattn hlive _
  apply hpresent i lc hi hattn fun hmem => hlive (M.staleRange_mono hattn haccepts.history hmem)
  intro hscratch
  obtain ⟨henable, -, hstale, -⟩ := mem_scratchRangeAt.1 hscratch
  exact hlive (M.staleRange_mono hattn (haccepts.scratch henable hne).1 hstale)

theorem Present.covers_of_not_leaves (hpresent : s.Present M) (hle : s.historyLength ≤ h)
    (hkeeps : ¬ s.LeavesScratch M h) : s.Covers M h s.capacity := by
  intro i lc hi _ hattn hlive hout hnone
  by_cases hscratch : i ∈ s.scratchRange M lc
  · exact hkeeps ⟨i, lc, hscratch, hnone, hlive, hout⟩
  · exact hpresent i lc hi hattn (fun hmem => hlive (M.staleRange_mono hattn hle hmem)) hscratch hnone

def Returns (M : KVCacheManager) (s : KVCache τ) (op : CacheOp τ) : Prop := ∃ t, call M op s = .ok ⟨⟩ t

instance (op : CacheOp τ) : Decidable (Returns M s op) :=
  match hrun : call M op s with
  | .ok ⟨⟩ t => isTrue ⟨t, hrun⟩
  | .error _ _ => isFalse fun ⟨_, hok⟩ => nomatch hrun.symm.trans hok

/-- The call does not move the history past a scratch block that is still needed. -/
def KeepsScratch (M : KVCacheManager) (s : KVCache τ) (op : CacheOp τ) : Prop :=
  ∀ h, s.newHistory op = some h → ¬ s.LeavesScratch M h

def Complete (M : KVCacheManager) (s : KVCache τ) : Prop := s.status = .closed ∨ (s.Sound M ∧ s.Present M)

theorem after_of_returns (hreturns : s.Returns M op) (hends : Ends (call M op s) Q E) : Q ⟨⟩ (after M op s) := by
  obtain ⟨t, hrun⟩ := hreturns
  unfold after
  rw [hrun]
  exact hends.ok hrun

theorem Complete.resized (hsound : s.Sound M) (hpresent : s.Present M) (haccepts : s.ResizeAccepts M c h)
    (hok : ResizeOk M s c h success t) (hkeeps : c = s.capacity → ¬ s.LeavesScratch M h) : Complete M t := by
  cases success with
  | true =>
    refine .inr ⟨(hok.moved hsound haccepts).sound, hok.present_iff.2 ?_⟩
    by_cases hsame : c = s.capacity
    · subst hsame
      exact hpresent.covers_of_not_leaves haccepts.history (hkeeps rfl)
    · exact hpresent.covers_of_accepts haccepts hsame
  | false =>
    have hkept := hok.kept hsound haccepts.active
    exact .inr ⟨hkept.sound, hkept.present_iff.2 hpresent⟩

theorem Complete.stayed (hcore : s.Core M) (hpresent : s.Present M) (h : Stayed M s t) : Complete M t := by
  refine .inr ⟨h.sound, h.present_iff.2 ?_⟩
  rw [h.historyLength, h.capacity]
  exact (covers_self_iff hcore).2 hpresent

theorem Complete.after (hcomplete : Complete M s) (h : s.Returns M op)
    (hkeeps : s.KeepsScratch M op) : Complete M (after M op s) := by
  rcases hcomplete with hclosed | ⟨hsound, hpresent⟩
  · rw [after_of_closed hclosed]
    exact .inl hclosed
  cases op with
  | resize ans capacity historyLength =>
    obtain ⟨success, haccepts, hok⟩ := after_of_returns h (resize_spec hsound.core ans rfl rfl).discard
    exact .resized hsound hpresent haccepts hok fun hsame => hkeeps _ (if_pos hsame)
  | setHistoryLength ans historyLength =>
    have hends : Ends (call M (.setHistoryLength ans historyLength) s)
        (fun _ t => s.ResizeAccepts M s.capacity historyLength ∧ ResizeOk M s s.capacity historyLength true t)
        fun _ _ => True := by
      refine (resize_spec hsound.core ans rfl rfl).bind ?_ fun _ _ _ => trivial
      rintro success t ⟨haccepts, hok⟩
      cases success with
      | true => exact ⟨haccepts, hok⟩
      | false => trivial
    obtain ⟨haccepts, hok⟩ := after_of_returns h hends
    exact .resized hsound hpresent haccepts hok fun _ => hkeeps _ rfl
  | commit ans tokens isEnd =>
    have hmoved := after_of_returns h (commit_spec hsound ans tokens isEnd)
    refine .inr ⟨hmoved.sound, hmoved.present_iff.2 ?_⟩
    rw [hmoved.historyLength, hmoved.capacity]
    exact hpresent.covers_of_not_leaves (le_max_left ..) (hkeeps _ rfl)
  | stopCommitting ans =>
    exact .stayed hsound.core hpresent (after_of_returns h (stopCommitting_stayed hsound ans))
  | suspend => exact .stayed hsound.core hpresent (after_of_returns h (suspend_spec hsound))
  | resume ans =>
    obtain ⟨-, hstayed⟩ := after_of_returns h (resume_spec hsound ans).discard
    exact .stayed hsound.core hpresent hstayed
  | close ans => exact .inl (after_of_returns h (close_spec hsound ans))

/-- Accepted calls lose no page still needed, as long as none moves the history past a scratch block that is neither
stale nor a scratch block then. -/
theorem windowed_present_of_keepsScratch {found : Option (SequenceMatch τ M.tokensPerBlock)} {ops : List (CacheOp τ)}
    (hcreate : create M found = .ok s) (hrun : Along M (fun s op => s.Returns M op ∧ s.KeepsScratch M op) ops s) :
    ∀ t ∈ states M ops s, t.status ≠ .closed → ∀ i lc, i < t.blocks.length → M.isWindowed lc = true →
      i ∉ M.staleRange lc t.historyLength → i ∉ t.scratchRange M lc → t.page i lc ≠ none := by
  obtain ⟨hsound, hpresent, -⟩ := create_sound hcreate
  have hinit : Complete M s := .inr ⟨hsound, hpresent⟩
  intro t ht hopen i lc hi hwindowed hlive hout
  rcases hrun.of_mem_states (fun s op hcomplete hstep => hcomplete.after hstep.1 hstep.2) hinit t ht with
    hclosed | ⟨-, hpresentt⟩
  · exact absurd hclosed hopen
  · exact hpresentt i lc hi (M.isAttention_of_isWindowed hwindowed) hlive hout

theorem windowed_present_of_prefill :
    ∃ t ∈ states (windowManager (some 0))
      [.resume freeToResume, .resize freeSlots (some 10) none, .resize freeSlots (some 12) (some 10)]
      (empty (windowManager (some 0)) : KVCache Unit),
      t.historyLength = 10 ∧ 9 < t.blocks.length ∧ t.page 9 0 ≠ none := by
  -- no call asks for another history at the same capacity
  have hkeeps : ∀ (s : KVCache Unit) op, s.newHistory op = none → s.KeepsScratch (windowManager (some 0)) op := by
    intro s op hnone h hsome
    rw [hnone] at hsome
    cases hsome
  apply exists_mem_of (p := fun t => t.historyLength = 10 ∧ 9 < t.blocks.length ∧ t.status ≠ .closed ∧
    9 ∉ (windowManager (some 0)).staleRange 0 t.historyLength ∧ 9 ∉ t.scratchRange (windowManager (some 0)) 0)
    (by decide +kernel)
  intro t ht ⟨hhistory, hlen, hopen, hlive, hout⟩
  refine ⟨hhistory, hlen, ?_⟩
  apply windowed_present_of_keepsScratch (show create _ none = .ok _ from rfl) _ t ht hopen 9 0 hlen (by decide) hlive hout
  exact ⟨⟨by decide +kernel, hkeeps _ _ (by decide +kernel)⟩, ⟨by decide +kernel, hkeeps _ _ (by decide +kernel)⟩,
    ⟨by decide +kernel, hkeeps _ _ (by decide +kernel)⟩, trivial⟩

/-- Block 4 was a scratch block without a page of its own; with a history of 5 it is in the window. -/
theorem exists_windowed_missing :
    Along (windowManager (some 0)) (fun s op => s.Returns (windowManager (some 0)) op)
      [.resume freeToResume, .resize freeSlots (some 10) none, .setHistoryLength freeSlots 5]
      (empty (windowManager (some 0)) : KVCache Unit) ∧
    ∃ t ∈ states (windowManager (some 0))
      [.resume freeToResume, .resize freeSlots (some 10) none, .setHistoryLength freeSlots 5]
      (empty (windowManager (some 0)) : KVCache Unit),
      t.status ≠ .closed ∧ 4 < t.blocks.length ∧ (windowManager (some 0)).isWindowed 0 = true ∧
        4 ∉ (windowManager (some 0)).staleRange 0 t.historyLength ∧ 4 ∉ t.scratchRange (windowManager (some 0)) 0 ∧
        t.page 4 0 = none := by
  decide +kernel

/-- The cache is suspended and has the holders and the GPU slots of its own that it had. -/
structure Untouched (M : KVCacheManager) (s t : KVCache τ) : Prop where
  status : t.status = .suspended
  blocks : t.blocks = s.blocks
  ssmBlock : t.ssmBlock = s.ssmBlock
  scratchSlots : ∀ lc ∈ M.lifeCycleIds, t.scratchSlots lc = s.scratchSlots lc

theorem lockActivePages_failed (lockToGpu : Except StorageError (Option Nat → LifeCycleId → SlotId))
    (deferred : LifeCycleId → SlotId) :
    Ends (lockActivePages M lockToGpu deferred s) (fun success t => success = false → t = s) fun _ _ => True := by
  rw [lockActivePages, activePages, bind_assoc, get_bind_apply, bind_assoc]
  apply Ends.check fun _ => trivial
  intro _
  apply Ends.check fun _ => trivial
  intro _
  apply Ends.check fun _ => trivial
  intro _
  cases lockToGpu with
  | error e =>
    cases e with
    | outOfPages => exact fun _ => rfl
    | _ => trivial
  | ok slotOf =>
    -- whatever else happens here, the answer is `True`
    have hany : ∀ r : EStateM.Result CacheError (KVCache τ) PUnit, Ends r (fun _ _ => True) fun _ _ => True := by
      rintro (_ | _) <;> trivial
    refine (hany _).bind (fun _ _ _ => ?_) fun _ _ _ => trivial
    refine (hany _).bind (fun _ _ _ => ?_) fun _ _ _ => trivial
    refine (hany _).bind (fun _ _ _ => ?_) fun _ _ _ => trivial
    rintro ⟨⟩

def noRoom : ResumeAnswers := { freeToResume with lockToGpu := .error .outOfPages }

end TrtLlm.KvCache.KVCache
