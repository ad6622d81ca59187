import Mathlib
import TrtLlm.Lib.Dict

/-!
# Servers that come and go

The routers keep a state object for each server of their list and for each server that is being prepared. Every update of
the list rebuilds the map of the objects from the list alone, so a server that leaves and comes back has a new object. The
routing table remembers a server's name only: a request that finishes late is taken off the account of the new object,
which never counted it.

Each operation is a critical section of the router's lock. Which server a request is routed to does not matter here.
-/

namespace TrtLlm.Serve

/-- The server list and the map of state objects; `created` objects have been made so far. -/
structure ServerPool (σ τ : Type*) where
  servers : List σ := []
  serverState : Dict σ τ := ∅
  created : ℕ := 0

namespace ServerPool

variable {σ τ : Type*} [DecidableEq σ] (create : ℕ → τ) (p : ServerPool σ τ) (server : σ)

def stageServer : ServerPool σ τ :=
  if (p.serverState.get? server).isSome then p
  else { p with serverState := p.serverState.insert server (create p.created), created := p.created + 1 }

def unstageServer : ServerPool σ τ :=
  if server ∈ p.servers then p else { p with serverState := p.serverState.erase server }

/-- The loop of `_on_servers_updated`: the object of a server is kept or made anew. -/
def newState (old : Dict σ τ) : List σ → Dict σ τ × ℕ → Dict σ τ × ℕ
  | [], acc => acc
  | server :: rest, (state, created) =>
    newState old rest (state.insert server ((old.get? server).getD (create created)),
      if (old.get? server).isSome then created else created + 1)

def onServersUpdated (newServers : List σ) : ServerPool σ τ :=
  let (state, created) := newState create p.serverState newServers (∅, p.created)
  ⟨newServers, state, created⟩

def commitServer : ServerPool σ τ :=
  if server ∈ p.servers then p else p.onServersUpdated create (p.servers ++ [server])

def removeServer : ServerPool σ τ :=
  if server ∈ p.servers then p.onServersUpdated create (p.servers.filter (· ≠ server)) else p

theorem newState_spec (old : Dict σ τ) (servers : List σ) (state : Dict σ τ) (created : ℕ) :
    let new := newState create old servers (state, created)
    created ≤ new.2 ∧ (∀ s, s ∈ servers ∨ (state.get? s).isSome → (new.1.get? s).isSome) ∧
      ∀ s object, new.1.get? s = some object → state.get? s = some object ∨ old.get? s = some object ∨
        old.get? s = none ∧ ∃ n, created ≤ n ∧ n < new.2 ∧ object = create n := by
  induction servers generalizing state created with
  | nil =>
    refine ⟨le_rfl, fun s hs => ?_, fun s object => .inl⟩
    exact hs.resolve_left List.not_mem_nil
  | cons server rest ih =>
    obtain ⟨hle, hsome, hfrom⟩ := ih (state.insert server ((old.get? server).getD (create created)))
      (if (old.get? server).isSome then created else created + 1)
    refine ⟨le_trans (by split <;> omega) hle, fun s hs => hsome s ?_, fun s object hobject => ?_⟩
    · by_cases heq : s = server <;> simp_all
    rcases hfrom s object hobject with hget | hget | ⟨hnone, n, hn, hlt, hget⟩
    · by_cases heq : s = server
      · subst heq
        cases hold : old.get? s with
        | some kept => exact .inr (.inl (by simpa [hold] using hget))
        | none =>
          refine .inr (.inr ⟨rfl, created, le_rfl, lt_of_lt_of_le ?_ hle, ?_⟩)
          · simp [hold]
          · simpa [hold] using hget.symm
      · exact .inl (by rwa [Dict.get?_insert_of_ne heq] at hget)
    · exact .inr (.inl hget)
    · exact .inr (.inr ⟨hnone, n, le_trans (by split <;> omega) hn, hlt, hget⟩)

theorem onServersUpdated_spec (p : ServerPool σ τ) (newServers : List σ) : let q := p.onServersUpdated create newServers
    p.created ≤ q.created ∧ (∀ s ∈ newServers, (q.serverState.get? s).isSome) ∧
      ∀ s object, q.serverState.get? s = some object → p.serverState.get? s = some object ∨
        p.serverState.get? s = none ∧ ∃ n, p.created ≤ n ∧ n < q.created ∧ object = create n := by
  obtain ⟨hle, hsome, hfrom⟩ := newState_spec create p.serverState newServers ∅ p.created
  exact ⟨hle, fun s hs => hsome s (.inl hs), fun s object hobject => (hfrom s object hobject).resolve_left nofun⟩

end ServerPool

/-- A router that balances by the number of active requests. A state object is named by its server and its number. -/
structure LoadRouter (σ : Type*) extends ServerPool σ ℕ where
  numActiveRequests : σ × ℕ → ℤ := fun _ => 0
  /-- The table has the name only; the number of the object that counted the request is for the account. -/
  reqRoutingTable : Dict ℕ (σ × ℕ) := ∅
  /-- The objects of requests that were routed again before they finished. -/
  rerouted : List (σ × ℕ) := []
  /-- The objects that a request was taken off which they had not counted. -/
  misdirected : List (σ × ℕ) := []

inductive LoadRouterOp (σ : Type*) where
  /-- A request gets its server: `_register_request`, or the end of `_route`. -/
  | route (request : ℕ) (server : σ)
  | finishRequest (request : ℕ)
  | stageServer (server : σ)
  | unstageServer (server : σ)
  | commitServer (server : σ)
  | removeServer (server : σ)

namespace LoadRouter

variable {σ : Type*} [DecidableEq σ] (r : LoadRouter σ)

def exec : LoadRouterOp σ → LoadRouter σ
  | .route request server =>
    match r.serverState.get? server with
    | some n =>
      if server ∈ r.servers then
        { r with
          numActiveRequests := Function.update r.numActiveRequests (server, n) (r.numActiveRequests (server, n) + 1)
          reqRoutingTable := r.reqRoutingTable.insert request (server, n)
          rerouted := r.rerouted ++ (r.reqRoutingTable.get? request).toList }
      else r
    | none => r
  | .finishRequest request =>
    match r.reqRoutingTable.get? request with
    | none => r
    | some (server, counted) =>
      let r := { r with reqRoutingTable := r.reqRoutingTable.erase request }
      match r.serverState.get? server with
      | none => r
      | some n =>
        { r with
          numActiveRequests := Function.update r.numActiveRequests (server, n) (r.numActiveRequests (server, n) - 1)
          misdirected := if n = counted then r.misdirected else r.misdirected ++ [(server, n)] }
  | .stageServer server => { r with toServerPool := r.toServerPool.stageServer id server }
  | .unstageServer server => { r with toServerPool := r.toServerPool.unstageServer server }
  | .commitServer server => { r with toServerPool := r.toServerPool.commitServer id server }
  | .removeServer server => { r with toServerPool := r.toServerPool.removeServer id server }

def run (r : LoadRouter σ) (ops : List (LoadRouterOp σ)) : LoadRouter σ := ops.foldl exec r

def create (servers : List σ) : LoadRouter σ := { toServerPool := ServerPool.onServersUpdated id {} servers }

/-- The requests that an object has counted and that did not finish. -/
def outstanding (x : σ × ℕ) : ℤ := r.reqRoutingTable.entries.countP (·.2 = x) + r.rerouted.count x

/-- The object is in the map, or not made yet. -/
def Live (x : σ × ℕ) : Prop := r.serverState.get? x.1 = some x.2 ∨ r.created ≤ x.2

structure Inv : Prop where
  listed : ∀ s ∈ r.servers, (r.serverState.get? s).isSome
  made : ∀ s n, r.serverState.get? s = some n → n < r.created
  counted : ∀ request x, r.reqRoutingTable.get? request = some x → x.2 < r.created
  account : ∀ x, r.Live x → r.numActiveRequests x + r.misdirected.count x = r.outstanding x

variable {r}

theorem Inv.setPool (hr : r.Inv) {p : ServerPool σ ℕ} (hlisted : ∀ s ∈ p.servers, (p.serverState.get? s).isSome)
    (hle : r.created ≤ p.created)
    (hstate : ∀ s n, p.serverState.get? s = some n → r.serverState.get? s = some n ∨ r.created ≤ n ∧ n < p.created) :
    Inv { r with toServerPool := p } where
  listed := hlisted
  made s n hn := (hstate s n hn).elim (fun h => (hr.made s n h).trans_le hle) And.right
  counted request x hx := (hr.counted request x hx).trans_le hle
  account x hx := by
    apply hr.account x
    rcases hx with hx | hx
    · exact (hstate _ _ hx).imp id And.left
    · exact .inr (hle.trans hx)

theorem Inv.onServersUpdated (hr : r.Inv) (newServers : List σ) :
    Inv { r with toServerPool := r.toServerPool.onServersUpdated id newServers } := by
  obtain ⟨hle, hsome, hfrom⟩ := ServerPool.onServersUpdated_spec id r.toServerPool newServers
  apply hr.setPool hsome hle
  intro s n hn
  rcases hfrom s n hn with hold | ⟨-, n, hn, hlt, rfl⟩
  · exact .inl hold
  · exact .inr ⟨hn, hlt⟩

theorem count_erase (request : ℕ) (x : σ × ℕ) :
    (r.reqRoutingTable.entries.countP (·.2 = x) : ℤ) = (r.reqRoutingTable.erase request).entries.countP (·.2 = x) +
      if r.reqRoutingTable.get? request = some x then 1 else 0 := by
  rw [r.reqRoutingTable.countP_erase request]
  cases r.reqRoutingTable.get? request with
  | none => simp
  | some y => by_cases hy : y = x <;> simp [hy]

theorem Inv.route (hr : r.Inv) (request : ℕ) (server : σ) : (r.exec (.route request server)).Inv := by
  simp only [exec]
  split
  · rename_i n hn
    split
    · refine { hr with counted := fun request' x hx => ?_, account := fun x hx => ?_ }
      · rw [Dict.get?_insert] at hx
        split at hx
        · cases hx
          exact hr.made _ _ hn
        · exact hr.counted _ _ hx
      · have haccount := hr.account x hx
        have hrerouted : (r.reqRoutingTable.get? request).toList.count x =
            if r.reqRoutingTable.get? request = some x then 1 else 0 := by
          cases r.reqRoutingTable.get? request with
          | none => rfl
          | some y => simp [List.count_singleton]
        rw [outstanding, count_erase request] at haccount
        simp only [outstanding, Dict.countP_insert]
        grind
    · exact hr
  · exact hr

theorem Inv.finishRequest (hr : r.Inv) (request : ℕ) : (r.exec (.finishRequest request)).Inv := by
  simp only [exec]
  split
  · exact hr
  rename_i server counted hget
  have hcounted : ∀ request' x, (r.reqRoutingTable.erase request).get? request' = some x → x.2 < r.created := by
    intro request' x hx
    rw [Dict.get?_erase] at hx
    split at hx
    · cases hx
    · exact hr.counted _ _ hx
  -- the object that counted the request is the server's own, or gone and with it its account
  have hlive : ∀ x, r.Live x → (server, counted) = x → r.serverState.get? server = some counted := by
    rintro x hx rfl
    exact hx.resolve_right (not_le.2 (hr.counted request _ hget))
  split
  · rename_i hnone
    refine { hr with counted := hcounted, account := fun x hx => ?_ }
    have hne : (server, counted) ≠ x := fun h => nomatch hnone.symm.trans (hlive x hx h)
    have haccount := hr.account x hx
    rw [outstanding, count_erase request, hget, if_neg (by simpa using hne)] at haccount
    exact haccount
  · rename_i n hn
    refine { hr with counted := hcounted, account := fun x hx => ?_ }
    have hsame : (server, counted) = x → n = counted := fun h => Option.some.inj (hn.symm.trans (hlive x hx h))
    have haccount := hr.account x hx
    rw [outstanding, count_erase request] at haccount
    simp only [outstanding, Function.update_apply]
    grind

theorem Inv.exec (hr : r.Inv) (op : LoadRouterOp σ) : (r.exec op).Inv := by
  cases op with
  | route request server => exact hr.route request server
  | finishRequest request => exact hr.finishRequest request
  | stageServer server =>
    simp only [LoadRouter.exec, ServerPool.stageServer]
    split
    · exact hr
    apply hr.setPool
    · intro s hs
      by_cases heq : s = server <;> simp [heq, hr.listed s hs]
    · exact Nat.le_succ _
    intro s n hn
    rw [Dict.get?_insert] at hn
    split at hn
    · cases hn
      exact .inr ⟨le_rfl, Nat.lt_succ_self _⟩
    · exact .inl hn
  | unstageServer server =>
    simp only [LoadRouter.exec, ServerPool.unstageServer]
    split
    · exact hr
    rename_i hnot
    apply hr.setPool
    · intro s hs
      have hne : s ≠ server := fun heq => hnot (heq ▸ hs)
      rw [Dict.get?_erase, if_neg hne]
      exact hr.listed s hs
    · exact le_rfl
    · intro s n hn
      rw [Dict.get?_erase] at hn
      split at hn
      · cases hn
      · exact .inl hn
  | commitServer server =>
    simp only [LoadRouter.exec, ServerPool.commitServer]
    split
    · exact hr
    · exact hr.onServersUpdated _
  | removeServer server =>
    simp only [LoadRouter.exec, ServerPool.removeServer]
    split
    · exact hr.onServersUpdated _
    · exact hr

end LoadRouter

end TrtLlm.Serve
