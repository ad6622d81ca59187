import TrtLlm.Lib.Path
import TrtLlm.Serve.Router

/-!
# Concurrent registration of servers

`KvCacheAwareRouter.add_server` stages a state object for the new server, awaits its preparation, records the advertised
hash algorithm in the object and lists the server. Only the preparation suspends the call. An update of the list that
another call makes in the meantime drops the staged object, and recording the algorithm raises a `KeyError`.
-/

namespace TrtLlm.Serve

open ServerPool

inductive HashAlgo where
  | v1BlockKey
  | v2Sha256
  | v2Sha256First64
deriving DecidableEq

structure ServerInfo where
  tokensPerBlock : Option ℕ
  kvCacheHashAlgo : Option HashAlgo

inductive RegistrationOp (σ : Type*) where
  /-- `add_server` up to the preparation. -/
  | begin (server : σ)
  /-- The preparation has succeeded: the rest of `add_server`. -/
  | complete (server : σ)
  | removeServer (server : σ)

structure Registration (σ : Type*) extends ServerPool σ HashAlgo where
  tokensPerBlock : ℕ
  tpbAuto : Bool
  preparedReadyServers : List σ := []
  /-- The calls that wait for a preparation, that returned `True` and that raised. -/
  pending : List σ := []
  added : List σ := []
  raised : List σ := []

namespace Registration

variable {σ : Type*} [DecidableEq σ]

/-- `_server_state[server].set_hash_algo`, if an algorithm is advertised; `none` is the `KeyError`. -/
def recordHashAlgo (p : ServerPool σ HashAlgo) (server : σ) : Option HashAlgo → Option (ServerPool σ HashAlgo)
  | none => some p
  | some algo =>
    if (p.serverState.get? server).isSome then some { p with serverState := p.serverState.insert server algo } else none

variable (info : σ → ServerInfo) (r : Registration σ)

def exec : RegistrationOp σ → Registration σ
  | .begin server =>
    if server ∈ r.servers then { r with added := r.added ++ [server] }
    else
      { r with
        toServerPool := r.toServerPool.stageServer (fun _ => .v1BlockKey) server
        pending := r.pending ++ [server] }
  | .complete server =>
    let r := { r with
      pending := r.pending.filter (· ≠ server)
      preparedReadyServers := r.preparedReadyServers ++ [server]
      tokensPerBlock := if r.tpbAuto then (info server).tokensPerBlock.getD r.tokensPerBlock else r.tokensPerBlock
      tpbAuto := r.tpbAuto && (info server).tokensPerBlock.isNone }
    match recordHashAlgo r.toServerPool server (info server).kvCacheHashAlgo with
    | some p => { r with toServerPool := p.commitServer (fun _ => .v1BlockKey) server, added := r.added ++ [server] }
    | none => { r with toServerPool := r.toServerPool.unstageServer server, raised := r.raised ++ [server] }
  | .removeServer server =>
    if server ∈ r.servers then
      { r with
        toServerPool := r.toServerPool.removeServer (fun _ => .v1BlockKey) server
        preparedReadyServers := r.preparedReadyServers.filter (· ≠ server) }
    else r

/-- The check of the block size in `_prepare_server`. -/
def accepts (info : ServerInfo) : Prop :=
  ∀ workerTpb, info.tokensPerBlock = some workerTpb → r.tpbAuto = false → workerTpb ≠ r.tokensPerBlock →
    max workerTpb r.tokensPerBlock % min workerTpb r.tokensPerBlock = 0

/-- The servers that are added are new, each is added once and none of them is removed. -/
def machine : Machine (Registration σ) (RegistrationOp σ) Unit where
  admissible r op := match op with
    | .begin server => server ∉ r.servers ∧ server ∉ r.pending ∧ server ∉ r.preparedReadyServers
    | .complete server => server ∈ r.pending ∧ r.accepts (info server)
    | .removeServer server => server ∉ r.pending ∧ server ∉ r.added
  exec r op := (r.exec info op, ())

/-- Every listed server has a state object with the algorithm that it advertises. -/
def Recorded (p : ServerPool σ HashAlgo) : Prop :=
  ∀ s ∈ p.servers, (p.serverState.get? s).isSome ∧ ∀ algo, (info s).kvCacheHashAlgo = some algo → p.serverState.get? s = some algo

/-- What is to hold after the calls. -/
structure Complete : Prop where
  raised : r.raised = []
  listed : ∀ s ∈ r.added, s ∈ r.servers
  recorded : Recorded info r.toServerPool
  prepared : ∀ s ∈ r.preparedReadyServers, (r.serverState.get? s).isSome

/-- A server whose preparation is done still has its staged object, or advertises no algorithm. -/
def Meets : RegistrationOp σ → Prop
  | .complete server => (info server).kvCacheHashAlgo = none ∨ (r.serverState.get? server).isSome
  | _ => True

def Undisturbed (info : σ → ServerInfo) (r : Registration σ) : List (RegistrationOp σ) → Prop
  | [] => True
  | op :: ops => r.Meets info op ∧ Undisturbed info (r.exec info op) ops

structure Inv : Prop where
  listed : ∀ s ∈ r.added, s ∈ r.servers
  recorded : Recorded info r.toServerPool
  pending : ∀ s ∈ r.pending, s ∉ r.servers
  prepared : ∀ s ∈ r.preparedReadyServers, s ∈ r.servers ∨ s ∈ r.raised

variable {info : σ → ServerInfo} {r : Registration σ} {p : ServerPool σ HashAlgo} {server : σ} {algo : Option HashAlgo}

theorem Inv.complete (hr : r.Inv info) (hraised : r.raised = []) : r.Complete info where
  raised := hraised
  listed := hr.listed
  recorded := hr.recorded
  prepared s hs := (hr.recorded s ((hr.prepared s hs).resolve_right (by simp [hraised]))).1

theorem recorded_onServersUpdated {servers : List σ}
    (h : ∀ s ∈ servers, ∀ algo, (info s).kvCacheHashAlgo = some algo → p.serverState.get? s = some algo) :
    Recorded info (p.onServersUpdated (fun _ => .v1BlockKey) servers) := by
  obtain ⟨-, hsome, hfrom⟩ := onServersUpdated_spec (fun _ => HashAlgo.v1BlockKey) p servers
  intro s hs
  refine ⟨hsome s hs, fun algo halgo => ?_⟩
  obtain ⟨object, hobject⟩ := Option.isSome_iff_exists.1 (hsome s hs)
  rcases hfrom s object hobject with hkept | ⟨hnone, -⟩
  · rw [hobject, ← hkept, h s hs algo halgo]
  · exact nomatch hnone.symm.trans (h s hs algo halgo)

theorem recordHashAlgo_of_some (h : algo = none ∨ (p.serverState.get? server).isSome) :
    ∃ q, recordHashAlgo p server algo = some q ∧ q.servers = p.servers ∧
      (∀ s, s ≠ server → q.serverState.get? s = p.serverState.get? s) ∧
      ∀ a, algo = some a → q.serverState.get? server = some a := by
  cases algo with
  | none => exact ⟨p, rfl, rfl, fun _ _ => rfl, nofun⟩
  | some a =>
    refine ⟨_, if_pos (h.resolve_left nofun), rfl, fun s hs => Dict.get?_insert_of_ne hs, ?_⟩
    rintro _ ⟨⟩
    exact Dict.get?_insert_self ..

variable (hr : r.Inv info)

include hr

theorem Inv.begin (hserver : server ∉ r.servers) : (r.exec info (.begin server)).Inv info := by
  have hpending : ∀ s ∈ r.pending ++ [server], s ∉ r.servers := by grind [hr.pending]
  simp only [Registration.exec, if_neg hserver, stageServer]
  split
  · exact { hr with pending := hpending }
  · refine { hr with pending := hpending, recorded := fun s hs => ?_ }
    have hne : s ≠ server := fun heq => hserver (heq ▸ hs)
    rw [Dict.get?_insert_of_ne hne]
    exact hr.recorded s hs

theorem Inv.complete_of_some (hpending : server ∈ r.pending) (hmeets : r.Meets info (.complete server)) :
    (r.exec info (.complete server)).Inv info ∧ (r.exec info (.complete server)).raised = r.raised := by
  obtain ⟨p, hp, hservers, hothers, hmine⟩ := recordHashAlgo_of_some hmeets
  simp only [Registration.exec, hp, commitServer, hservers, if_neg (hr.pending server hpending)]
  have hlisted : ∀ s, s ∈ (p.onServersUpdated (fun _ => .v1BlockKey) (r.servers ++ [server])).servers ↔
      s ∈ r.servers ∨ s = server := by simp [onServersUpdated]
  refine ⟨⟨by grind [hr.listed], recorded_onServersUpdated fun s hs algo halgo => ?_, by grind [hr.pending],
    by grind [hr.prepared]⟩, trivial⟩
  by_cases heq : s = server
  · subst heq
    exact hmine algo halgo
  · rw [hothers s heq]
    exact (hr.recorded s (by simpa [heq] using hs)).2 algo halgo

theorem Inv.complete_of_none (hpending : server ∈ r.pending) (hmeets : ¬r.Meets info (.complete server)) :
    (r.exec info (.complete server)).Inv info ∧ (r.exec info (.complete server)).raised = r.raised ++ [server] := by
  have hnot := hr.pending server hpending
  have hp : recordHashAlgo r.toServerPool server (info server).kvCacheHashAlgo = none := by
    obtain ⟨hsome, hgone⟩ := not_or.1 hmeets
    obtain ⟨algo, halgo⟩ := Option.ne_none_iff_exists'.1 hsome
    rw [halgo, recordHashAlgo, if_neg hgone]
  simp only [Registration.exec, hp, unstageServer, if_neg hnot]
  refine ⟨⟨hr.listed, fun s hs => ?_, by grind [hr.pending], by grind [hr.prepared]⟩, trivial⟩
  have hne : s ≠ server := fun heq => hnot (heq ▸ hs)
  rw [Dict.get?_erase, if_neg hne]
  exact hr.recorded s hs

theorem Inv.removeServer (hadded : server ∉ r.added) : (r.exec info (.removeServer server)).Inv info := by
  simp only [Registration.exec]
  split
  · rename_i hserver
    simp only [ServerPool.removeServer, if_pos hserver]
    have hlisted : ∀ s, s ∈ (r.toServerPool.onServersUpdated (fun _ => .v1BlockKey)
        (r.servers.filter (· ≠ server))).servers ↔ s ∈ r.servers ∧ s ≠ server := by simp [onServersUpdated]
    exact ⟨by grind [hr.listed], recorded_onServersUpdated fun s hs => (hr.recorded s (List.mem_of_mem_filter hs)).2,
      by grind [hr.pending], by grind [hr.prepared]⟩
  · exact hr

theorem Inv.exec {op : RegistrationOp σ} (hop : (machine info).admissible r op) :
    (r.exec info op).Inv info ∧ (r.Meets info op → (r.exec info op).raised.length = r.raised.length) ∧
      (¬r.Meets info op → (r.exec info op).raised.length = r.raised.length + 1) := by
  cases op with
  | begin server =>
    refine ⟨hr.begin hop.1, fun _ => ?_, absurd trivial⟩
    rw [Registration.exec, if_neg hop.1]
  | complete server =>
    by_cases hmeets : r.Meets info (.complete server)
    · obtain ⟨hnext, hraised⟩ := hr.complete_of_some hop.1 hmeets
      exact ⟨hnext, fun _ => congrArg List.length hraised, absurd hmeets⟩
    · obtain ⟨hnext, hraised⟩ := hr.complete_of_none hop.1 hmeets
      exact ⟨hnext, fun h => absurd h hmeets, fun _ => by rw [hraised, List.length_append, List.length_singleton]⟩
  | removeServer server =>
    refine ⟨hr.removeServer hop.2, fun _ => ?_, absurd trivial⟩
    rw [Registration.exec]
    split <;> rfl

theorem Inv.run {ops : List (RegistrationOp σ)} (hops : (machine info).Admits r ops) :
    ((machine info).after r ops).Inv info ∧ r.raised.length ≤ ((machine info).after r ops).raised.length ∧
      (((machine info).after r ops).raised.length = r.raised.length ↔ Undisturbed info r ops) := by
  induction ops generalizing r with
  | nil => exact ⟨hr, le_rfl, iff_of_true rfl trivial⟩
  | cons op ops ih =>
    obtain ⟨hnext, hsame, hmore⟩ := hr.exec hops.1
    obtain ⟨hend, hle, hiff⟩ := ih hnext hops.2
    by_cases hmeets : r.Meets info op
    · rw [hsame hmeets] at hle hiff
      exact ⟨hend, hle, hiff.trans (and_iff_right hmeets).symm⟩
    · rw [hmore hmeets] at hle
      exact ⟨hend, Nat.le_of_succ_le hle, iff_of_false (ne_of_gt hle) fun h => hmeets h.1⟩

omit hr

/-- No call raises, every added server is listed with its algorithm and every prepared one has a state object, exactly
if no staged object was dropped before it was needed. -/
theorem registration_complete_iff (info : σ → ServerInfo) (r : Registration σ) (hr : r.Inv info)
    (hraised : r.raised = []) (ops : List (RegistrationOp σ)) (hops : (machine info).Admits r ops) :
    ((machine info).after r ops).Complete info ↔ Undisturbed info r ops := by
  obtain ⟨hend, -, hiff⟩ := hr.run hops
  rw [← hiff, hraised, List.length_nil, List.length_eq_zero_iff]
  exact ⟨fun h => h.raised, hend.complete⟩

theorem registration_complete_two : let info (_ : ℕ) : ServerInfo := ⟨none, some .v2Sha256⟩
    let r : Registration ℕ := { tokensPerBlock := 32, tpbAuto := true }
    let ops := [.begin 1, .complete 1, .begin 2, .complete 2]
    (machine info).Admits r ops ∧ ((machine info).after r ops).Complete info := by
  intro info r ops
  have hops : (machine info).Admits r ops :=
    ⟨⟨by decide, by decide, by decide⟩, ⟨by decide, nofun⟩, ⟨by decide, by decide, by decide⟩, ⟨by decide, nofun⟩, trivial⟩
  refine ⟨hops, (registration_complete_iff info r ⟨nofun, nofun, nofun, nofun⟩ rfl ops hops).2 ?_⟩
  exact ⟨trivial, .inr rfl, trivial, .inr rfl, trivial⟩

/-- Server 1 is listed while server 2 is prepared: the staged object of server 2 is gone, its call raises, and it stays
prepared without a state object. -/
theorem registration_drops_staged : let info (_ : ℕ) : ServerInfo := ⟨some 32, some .v2Sha256⟩
    let r := (machine info).after { tokensPerBlock := 32, tpbAuto := false }
      [.begin 1, .begin 2, .complete 1, .complete 2]
    r.raised = [2] ∧ r.servers = [1] ∧ r.preparedReadyServers = [1, 2] ∧ r.serverState.get? 2 = none := by
  decide

end Registration

end TrtLlm.Serve
