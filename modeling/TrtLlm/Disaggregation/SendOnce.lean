import TrtLlm.Disaggregation.KvSlice
import TrtLlm.Lib.Dict
import TrtLlm.Lib.Path

/-!
# Each slice to each receiver once

`TxSession.send` and the handler of a receiver's REQUEST_DATA message (`_respond_with_kv`) run in different threads.
Each stores its half of a pair and reads the halves that the other has stored so far. The model has one request id and
one operation for each critical section; the loops over a snapshot run outside the locks, one pair at a time.

The invariant is an exact count: a slice and a receiver that are both known occur once in the queue and the rest of the
loops together, all other pairs never.
-/

namespace TrtLlm.Disaggregation

open List

structure RecvReqInfo (ι δ : Type*) where
  instanceRank : ι
  blockIds : δ
deriving DecidableEq

structure KvSendTask (α : Type*) where
  sliceId : ℕ
  slice : α
deriving DecidableEq

structure WriteMeta (ι α ω : Type*) where
  task : KvSendTask α
  peerRank : ι
  frags : ω
deriving DecidableEq

inductive SendOp (ι α δ : Type*) where
  /-- The end of the constructor of `TxSession`. -/
  | setupSession
  | send (slice : α)
  /-- A message arrives: up to the release of `_sessions_lock`. -/
  | requestData (info : RecvReqInfo ι δ)
  /-- A handler that has found the session gets the session's lock. -/
  | respondWithKv (i : ℕ)
  /-- One round of the loop of a thread. -/
  | enqueue (i : ℕ)

/-- What the sender and the session hold for one request id. -/
structure SendState (ι α δ ω : Type*) where
  registered : Bool := false
  peerRequests : Dict ι (RecvReqInfo ι δ) := ∅
  kvTasks : List (KvSendTask α) := []
  /-- Messages whose handler has found the session and waits for its lock. -/
  responding : List (RecvReqInfo ι δ) := []
  loops : List (List (KvSendTask α × RecvReqInfo ι δ)) := []
  sendTaskQueue : List (WriteMeta ι α ω) := []

namespace SendState

variable {ι α δ ω ε : Type*} [DecidableEq ι]

/-- `known`: the ranks for which `get_peer_rank_info` returns; `build` is `_build_kv_write_meta`. A terminal session
without tasks also sends FAILED to the receiver; there is nothing to enqueue then. -/
def exec (known : ι → Bool) (build : KvSendTask α → RecvReqInfo ι δ → Except ε ω) (s : SendState ι α δ ω) :
    SendOp ι α δ → SendState ι α δ ω
  | .setupSession => { s with registered := true }
  | .send slice =>
    let task : KvSendTask α := ⟨s.kvTasks.length, slice⟩
    { s with kvTasks := s.kvTasks ++ [task], loops := s.loops ++ [s.peerRequests.values.map (task, ·)] }
  | .requestData info =>
    if s.registered then { s with responding := s.responding ++ [info] }
    else { s with peerRequests := s.peerRequests.insert info.instanceRank info }
  | .respondWithKv i =>
    match s.responding[i]? with
    | none => s
    | some info =>
      let s := { s with
        responding := s.responding.eraseIdx i
        peerRequests := s.peerRequests.insert info.instanceRank info }
      if known info.instanceRank then { s with loops := s.loops ++ [s.kvTasks.map (·, info)] } else s
  | .enqueue i =>
    match s.loops[i]? with
    | some ((task, info) :: rest) =>
      match build task info with
      | .ok frags =>
        { s with
          loops := s.loops.set i rest
          sendTaskQueue := s.sendTaskQueue ++ [⟨task, info.instanceRank, frags⟩] }
      -- the exception ends the thread's loop
      | .error _ => { s with loops := s.loops.set i [] }
    | _ => s

variable (s : SendState ι α δ ω)

/-- The session is created once and sends afterwards, each rank sends one message. -/
def admissible : SendOp ι α δ → Prop
  | .setupSession => s.registered = false
  | .send _ => s.registered = true
  | .requestData info =>
    s.peerRequests.get? info.instanceRank = none ∧ info.instanceRank ∉ s.responding.map (·.instanceRank)
  | .respondWithKv _ | .enqueue _ => True

def machine (known : ι → Bool) (build : KvSendTask α → RecvReqInfo ι δ → Except ε ω) :
    Machine (SendState ι α δ ω) (SendOp ι α δ) Unit where
  admissible := admissible
  exec s op := (s.exec known build op, ())

def enqueued : List (KvSendTask α × ι) := s.sendTaskQueue.map fun w => (w.task, w.peerRank)

/-- The tasks and ranks of the queue and of what the loops have left. -/
def keys : List (KvSendTask α × ι) := s.enqueued ++ s.loops.flatten.map fun pair => (pair.1, pair.2.instanceRank)

def Idle : Prop := s.loops.flatten = []

structure Inv : Prop where
  ids : s.kvTasks.map (·.sliceId) = List.range s.kvTasks.length
  ranks : ∀ r info, s.peerRequests.get? r = some info → info.instanceRank = r
  fresh : ∀ info ∈ s.responding, s.peerRequests.get? info.instanceRank = none
  distinct : (s.responding.map (·.instanceRank)).Nodup
  unregistered : s.registered = false → s.kvTasks = []
  nodup : s.keys.Nodup
  mem_keys : ∀ task r, (task, r) ∈ s.keys ↔ task ∈ s.kvTasks ∧ r ∈ s.peerRequests.keys

variable {known : ι → Bool} {build : KvSendTask α → RecvReqInfo ι δ → Except ε ω} {s : SendState ι α δ ω}

theorem Inv.send (hs : s.Inv) (hregistered : s.registered = true) (slice : α) : (s.exec known build (.send slice)).Inv := by
  have hkeys : (s.exec known build (.send slice)).keys = s.keys ++ s.peerRequests.keys.map (.mk ⟨s.kvTasks.length, slice⟩) := by
    have hranks : s.peerRequests.keys = s.peerRequests.values.map (·.instanceRank) := by
      rw [Dict.values, map_map]
      apply map_congr_left
      intro entry hentry
      exact (hs.ranks _ _ (Dict.mem_entries_iff.1 hentry)).symm
    rw [hranks]
    simp [exec, keys, enqueued]
  have hnew : ⟨s.kvTasks.length, slice⟩ ∉ s.kvTasks := by
    intro hmem
    have hid : s.kvTasks.length ∈ s.kvTasks.map (·.sliceId) := mem_map.2 ⟨_, hmem, rfl⟩
    simp [hs.ids] at hid
  exact { hs with
    ids := by simp [exec, hs.ids, range_succ]
    unregistered := fun h => by cases hregistered.symm.trans h
    nodup := by
      rw [hkeys, nodup_append']
      refine ⟨hs.nodup, s.peerRequests.nodup.map (Prod.mk_right_injective _), ?_⟩
      intro key hold hkey
      obtain ⟨r, -, rfl⟩ := mem_map.1 hkey
      exact hnew ((hs.mem_keys _ _).1 hold).1
    mem_keys := by
      intro task r
      rw [hkeys, mem_append, hs.mem_keys]
      simp only [exec, mem_map, Prod.mk.injEq, exists_eq_right_right, mem_append, mem_singleton]
      rw [or_and_right, and_comm (b := _ = task), eq_comm] }

theorem Inv.insert (hs : s.Inv) {info : RecvReqInfo ι δ} (hnone : s.peerRequests.get? info.instanceRank = none)
    {responding : List (RecvReqInfo ι δ)} (hresponding : responding.Sublist s.responding)
    (hne : info.instanceRank ∉ responding.map (·.instanceRank)) {loops : List (List (KvSendTask α × RecvReqInfo ι δ))}
    (hloops : loops.flatten = s.loops.flatten ++ s.kvTasks.map (·, info)) :
    Inv { s with responding, loops, peerRequests := s.peerRequests.insert info.instanceRank info } := by
  have hkeys : SendState.keys { s with loops } = s.keys ++ s.kvTasks.map (·, info.instanceRank) := by
    simp [keys, enqueued, hloops]
  have hmem : ∀ r, r ∈ (s.peerRequests.insert info.instanceRank info).keys ↔ r = info.instanceRank ∨ r ∈ s.peerRequests.keys := by
    intro r
    by_cases hr : r = info.instanceRank <;> simp [Dict.mem_keys_iff, hr]
  exact { hs with
    ranks := by
      intro r other hother
      rw [Dict.get?_insert] at hother
      split at hother
      · rename_i hr
        cases hother
        exact hr.symm
      · exact hs.ranks r other hother
    fresh := by
      intro other hother
      have hother' : other.instanceRank ≠ info.instanceRank := fun h => hne (h ▸ mem_map.2 ⟨other, hother, rfl⟩)
      exact (Dict.get?_insert_of_ne hother').trans (hs.fresh other (hresponding.subset hother))
    distinct := hs.distinct.sublist (hresponding.map _)
    nodup := by
      show (SendState.keys { s with loops }).Nodup
      rw [hkeys, nodup_append']
      refine ⟨hs.nodup, (Nodup.of_map _ (hs.ids ▸ nodup_range)).map (Prod.mk_left_injective _), ?_⟩
      intro key hold hnew
      obtain ⟨task, -, rfl⟩ := mem_map.1 hnew
      obtain ⟨other, hother⟩ := Dict.mem_keys_iff.1 ((hs.mem_keys _ _).1 hold).2
      exact nomatch hnone.symm.trans hother
    mem_keys := by
      intro task r
      show (task, r) ∈ SendState.keys { s with loops } ↔ _
      rw [hkeys, mem_append, hs.mem_keys, hmem, mem_map]
      constructor
      · rintro (⟨htask, hr⟩ | ⟨_, htask, heq⟩)
        · exact ⟨htask, .inr hr⟩
        · cases heq
          exact ⟨htask, .inl rfl⟩
      · rintro ⟨htask, rfl | hr⟩
        · exact .inr ⟨task, htask, rfl⟩
        · exact .inl ⟨htask, hr⟩ }

omit [DecidableEq ι] in
theorem exists_loop_split {i : ℕ} {loop : List (KvSendTask α × RecvReqInfo ι δ)} (hloop : s.loops[i]? = some loop) :
    ∃ before after, s.loops = before ++ loop :: after ∧ ∀ rest, s.loops.set i rest = before ++ rest :: after := by
  obtain ⟨hi, rfl⟩ := List.getElem?_eq_some_iff.1 hloop
  have hset : ∀ rest, s.loops.set i rest = s.loops.take i ++ rest :: s.loops.drop (i + 1) := by
    intro rest
    rw [set_eq_take_append_cons_drop, if_pos hi]
  exact ⟨_, _, (set_getElem_self hi).symm.trans (hset _), hset⟩

theorem keys_enqueue (hbuild : ∀ task info, ∃ frags, build task info = .ok frags) (i : ℕ) :
    (s.exec known build (.enqueue i)).keys.Perm s.keys := by
  cases hloop : s.loops[i]? with
  | none => simp [exec, hloop]
  | some loop =>
    cases loop with
    | nil => simp [exec, hloop]
    | cons pair rest =>
      obtain ⟨frags, hfrags⟩ := hbuild pair.1 pair.2
      obtain ⟨before, after, hsplit, hset⟩ := exists_loop_split hloop
      simp only [exec, hloop, hfrags, keys, enqueued, hset]
      rw [hsplit]
      simp only [map_append, flatten_append, map_cons, map_nil, append_assoc, cons_append, nil_append]
      apply List.Perm.append_left
      exact perm_middle.symm

theorem Inv.exec (hknown : ∀ rank, known rank = true) (hbuild : ∀ task info, ∃ frags, build task info = .ok frags)
    (hs : s.Inv) (op : SendOp ι α δ) (hop : s.admissible op) : (s.exec known build op).Inv := by
  cases op with
  | setupSession => exact { hs with unregistered := nofun }
  | send slice => exact hs.send hop slice
  | requestData info =>
    obtain ⟨hnone, hne⟩ := hop
    cases hregistered : s.registered with
    | false =>
      have htasks := hs.unregistered hregistered
      simpa [SendState.exec, hregistered] using hs.insert hnone (.refl _) hne (by simp [htasks])
    | true =>
      simp only [SendState.exec, hregistered, if_true]
      refine { hs with
        unregistered := nofun
        fresh := forall_mem_append.2 ⟨hs.fresh, forall_mem_singleton.2 hnone⟩
        distinct := ?_ }
      rw [map_append]
      exact nodup_append'.2 ⟨hs.distinct, nodup_singleton _, by simpa using hne⟩
  | respondWithKv i =>
    cases hinfo : s.responding[i]? with
    | none => simpa [SendState.exec, hinfo] using hs
    | some info =>
      obtain ⟨hi, rfl⟩ := List.getElem?_eq_some_iff.1 hinfo
      have hne : s.responding[i].instanceRank ∉ (s.responding.eraseIdx i).map (·.instanceRank) := by
        have hdistinct := hs.distinct
        rw [(getElem_cons_eraseIdx_perm hi).symm.map _ |>.nodup_iff] at hdistinct
        exact (nodup_cons.1 hdistinct).1
      have hloops : (s.loops ++ [s.kvTasks.map (·, s.responding[i])]).flatten =
          s.loops.flatten ++ s.kvTasks.map (·, s.responding[i]) := by simp
      simpa [SendState.exec, hinfo, hknown] using hs.insert (hs.fresh _ (getElem_mem hi)) (eraseIdx_sublist _ i) hne hloops
  | enqueue i =>
    have hperm : (s.exec known build (.enqueue i)).keys.Perm s.keys := keys_enqueue hbuild i
    have hrest : ∃ loops queue, s.exec known build (.enqueue i) = { s with loops, sendTaskQueue := queue } := by
      simp only [SendState.exec]
      split
      · split
        · exact ⟨_, _, rfl⟩
        · exact ⟨_, _, rfl⟩
      · exact ⟨_, _, rfl⟩
    obtain ⟨loops, queue, heq⟩ := hrest
    rw [heq] at hperm ⊢
    exact { hs with nodup := hperm.nodup_iff.2 hs.nodup, mem_keys := fun n r => hperm.mem_iff.trans (hs.mem_keys n r) }

theorem exists_idle (known : ι → Bool) (build : KvSendTask α → RecvReqInfo ι δ → Except ε ω) (s : SendState ι α δ ω) :
    ∃ rounds : List ℕ, ((machine known build).after s (rounds.map .enqueue)).Idle := by
  induction hn : s.loops.flatten.length using Nat.strong_induction_on generalizing s with
  | _ n ih =>
    by_cases hidle : s.Idle
    · exact ⟨[], hidle⟩
    obtain ⟨loop, hmem, hne⟩ := not_forall₂.1 (mt flatten_eq_nil_iff.2 hidle)
    obtain ⟨i, hloop⟩ := getElem?_of_mem hmem
    obtain ⟨⟨task, info⟩, rest, rfl⟩ := exists_cons_of_ne_nil hne
    obtain ⟨before, after, hsplit, hset⟩ := exists_loop_split hloop
    have hlt : ∀ left, left.length ≤ rest.length → (s.loops.set i left).flatten.length < n := by
      intro left hle
      subst hn
      rw [hset, hsplit]
      simp only [flatten_append, flatten_cons, length_append, length_cons]
      omega
    have hshort : (s.exec known build (.enqueue i)).loops.flatten.length < n := by
      simp only [exec, hloop]
      cases build task info with
      | ok frags => exact hlt _ le_rfl
      | error e => exact hlt [] (Nat.zero_le _)
    obtain ⟨rounds, hrounds⟩ := ih _ hshort _ rfl
    exact ⟨i :: rounds, hrounds⟩

/-- However the session's creation, its sends and the receivers' messages interleave, a write is enqueued at most once,
and only for a task and a receiver that are both there; once the loops have ended, which they do, for all of them. -/
theorem send_exactly_once [DecidableEq α] (hknown : ∀ rank, known rank = true)
    (hbuild : ∀ task info, ∃ frags, build task info = .ok frags) (ops : List (SendOp ι α δ))
    (hops : (machine known build).Admits {} ops) : let s := (machine known build).after {} ops
    s.enqueued.Nodup ∧ (∀ task r, (task, r) ∈ s.enqueued → task ∈ s.kvTasks ∧ r ∈ s.peerRequests.keys) ∧
      (s.Idle → ∀ task ∈ s.kvTasks, ∀ r ∈ s.peerRequests.keys, s.enqueued.count (task, r) = 1) ∧
      ∃ rounds : List ℕ, ((machine known build).after s (rounds.map .enqueue)).Idle := by
  intro s
  have hinv : s.Inv := by
    apply Path.invariant ?_ hops.path
    · exact ⟨rfl, nofun, nofun, nodup_nil, fun _ => rfl, nodup_nil, by simp [keys, enqueued]⟩
    · intro s call t hs hstep
      obtain ⟨hop, heq⟩ := hstep
      obtain rfl := congrArg Prod.fst heq
      exact hs.exec hknown hbuild call.1 hop
  have hnodup : s.enqueued.Nodup := hinv.nodup.of_append_left
  refine ⟨hnodup, fun task r hmem => (hinv.mem_keys task r).1 (mem_append_left _ hmem), ?_, exists_idle ..⟩
  intro hidle task htask r hr
  have hkeys : s.keys = s.enqueued := by rw [keys, hidle, map_nil, append_nil]
  exact count_eq_one_of_mem hnodup (hkeys ▸ (hinv.mem_keys task r).2 ⟨htask, hr⟩)

/-- One receiver asks before the session is there, the other after the send. -/
theorem send_exactly_once_two :
    let m := machine (fun _ => true) fun (task : KvSendTask ℕ) (info : RecvReqInfo ℕ ℕ) =>
      (.ok (task.slice, info.blockIds) : Except Unit _)
    let ops := [.requestData ⟨0, 5⟩, .setupSession, .send 7, .requestData ⟨1, 6⟩, .respondWithKv 0, .enqueue 1, .enqueue
      0]
    m.Admits {} ops ∧ (m.after {} ops).Idle ∧ (m.after {} ops).enqueued.count (⟨0, 7⟩, 1) = 1 := by
  intro m ops
  have hops : m.Admits {} ops := ⟨⟨rfl, by decide⟩, rfl, rfl, ⟨rfl, by decide⟩, trivial, trivial, trivial, trivial⟩
  have hsend := send_exactly_once (fun _ => rfl) (fun _ _ => ⟨_, rfl⟩) ops hops
  exact ⟨hops, rfl, hsend.2.2.1 rfl _ (by decide) 1 (by decide)⟩

/-- The first receiver asks for more blocks than the slice has. The exception leaves the loop of `send`, and the second,
whose write can be built, gets none. -/
theorem dispatch_stops_at_mismatch :
    let build (task : KvSendTask (List ℕ)) (info : RecvReqInfo ℕ (List ℕ)) :=
      buildKvWriteMeta 1 none 2 1 task.slice info.blockIds
    let m := machine (fun _ => true) build
    let ops := [.requestData ⟨0, [0, 1, 2]⟩, .requestData ⟨1, [4, 5]⟩, .setupSession, .send [7, 8], .enqueue 0]
    let s := m.after {} ops
    m.Admits {} ops ∧ s.Idle ∧ s.registered = true ∧ ⟨0, [7, 8]⟩ ∈ s.kvTasks ∧ 1 ∈ s.peerRequests.keys ∧
      build ⟨0, [7, 8]⟩ ⟨1, [4, 5]⟩ = .ok ([7, 8], [4, 5]) ∧ s.enqueued = [] :=
  ⟨⟨⟨rfl, by decide⟩, ⟨rfl, by decide⟩, rfl, rfl, trivial, trivial⟩, rfl, rfl, by decide, by decide, rfl, rfl⟩

end SendState

end TrtLlm.Disaggregation
