import Mathlib
import TrtLlm.Lib.Dict

/-!
# Reservations of the coordinator

`select`, `finish` and `_expire_reservation` run as tasks of one event loop and may be suspended wherever they await a
router: its lock is held while the monitor prepares a new server. The model cuts them there. A call first takes the
reservation's timer away, then has its router calls ahead of it; placing a request and starting its timer is one step.

The routers' tables hold the server of the last placement of each pair of role and request id, until a finish or an
expiration: what the loads should count. A placement over an entry loses the load that the entry stood for.
-/

namespace TrtLlm.Serve

open Function

inductive Role where
  | context
  | generation
deriving DecidableEq

inductive RouterKind where
  | kvCacheAware
  | conversation

def RouterKind.decrement : RouterKind → ℤ → ℤ
  | .kvCacheAware, load => load - 1
  | .conversation, load => max 0 (load - 1)

/-- A call of `select` or `finish`: whether it still has to release the pair, and whether it is to place it then. -/
structure CoordinatorTask where
  key : Role × ℕ
  releases : Bool
  places : Bool

inductive CoordinatorOp (σ : Type*) where
  | select (key : Role × ℕ)
  | finish (key : Role × ℕ)
  /-- A task gets to `finish_request_by_id` of its router. -/
  | release (i : ℕ)
  /-- A task gets to the end of `get_next_server_by_key`, with the server that the router picks. -/
  | place (i : ℕ) (server : σ)
  /-- The router raises: there is no server for the request. -/
  | refuse (i : ℕ)
  | expire (timer : ℕ)

structure Coordinator (σ : Type*) where
  /-- `_req_routing_table` of a KV-cache-aware router, `_coord_pending` of a conversation router. -/
  routingTable : Dict (Role × ℕ) σ := ∅
  load : Role × σ → ℤ := fun _ => 0
  reservationTasks : Dict (Role × ℕ) ℕ := ∅
  /-- The timers that neither have fired nor are cancelled. -/
  timers : Dict ℕ (Role × ℕ) := ∅
  nextTimer : ℕ := 0
  tasks : List CoordinatorTask := []

namespace Coordinator

variable {σ : Type*} [DecidableEq σ] (kind : RouterKind) (c : Coordinator σ) (key : Role × ℕ)

def finishRequestById : Coordinator σ :=
  match c.routingTable.get? key with
  | none => c
  | some server =>
    { c with
      routingTable := c.routingTable.erase key
      load := update c.load (key.1, server) (kind.decrement (c.load (key.1, server))) }

def cancelReservation : Coordinator σ :=
  match c.reservationTasks.get? key with
  | none => c
  | some timer => { c with reservationTasks := c.reservationTasks.erase key, timers := c.timers.erase timer }

def placing (i : ℕ) : Option (Role × ℕ) :=
  c.tasks[i]?.bind fun task => if task.places && !task.releases then some task.key else none

def exec : CoordinatorOp σ → Coordinator σ
  | .select key =>
    { c.cancelReservation key with tasks := c.tasks ++ [⟨key, (c.reservationTasks.get? key).isSome, true⟩] }
  | .finish key => { c.cancelReservation key with tasks := c.tasks ++ [⟨key, true, false⟩] }
  | .release i =>
    match c.tasks[i]? with
    | some ⟨key, true, places⟩ =>
      { c.finishRequestById kind key with
        tasks := if places then c.tasks.set i ⟨key, false, true⟩ else c.tasks.eraseIdx i }
    | _ => c
  | .place i server =>
    match c.placing i with
    | some key =>
      { c with
        routingTable := c.routingTable.insert key server
        load := update c.load (key.1, server) (c.load (key.1, server) + 1)
        reservationTasks := c.reservationTasks.insert key c.nextTimer
        timers := c.timers.insert c.nextTimer key
        nextTimer := c.nextTimer + 1
        tasks := c.tasks.eraseIdx i }
    | none => c
  | .refuse i => if (c.placing i).isSome then { c with tasks := c.tasks.eraseIdx i } else c
  | .expire timer =>
    match c.timers.get? timer with
    | none => c
    | some key =>
      { c.finishRequestById kind key with
        timers := c.timers.erase timer
        reservationTasks :=
          if c.reservationTasks.get? key = some timer then c.reservationTasks.erase key else c.reservationTasks }

def run (ops : List (CoordinatorOp σ)) : Coordinator σ := ops.foldl (exec kind) c

/-- The pairs that a server of a role is to be charged with. -/
def charged (x : Role × σ) : ℤ := c.routingTable.entries.countP fun entry => (entry.1.1, entry.2) = x

/-- The place whose entry the next operation overwrites. -/
def overwritten : CoordinatorOp σ → Option (Role × σ)
  | .place i _ => (c.placing i).bind fun key => (c.routingTable.get? key).map (key.1, ·)
  | _ => none

/-- No placement of the run meets a pair that is already placed. -/
def PlacesOnce (c : Coordinator σ) : List (CoordinatorOp σ) → Prop
  | [] => True
  | op :: ops => c.overwritten op = none ∧ PlacesOnce (c.exec kind op) ops

def excess (x : Role × σ) : ℤ := c.load x - c.charged x

variable {kind c}

theorem excess_cancelReservation (tasks : List CoordinatorTask) : excess { c.cancelReservation key with tasks } = c.excess := by
  unfold cancelReservation
  split <;> rfl

theorem excess_finishRequestById (hexcess : ∀ x, 0 ≤ c.excess x) (key : Role × ℕ) :
    (c.finishRequestById kind key).excess = c.excess := by
  unfold finishRequestById
  split
  · rfl
  rename_i server hget
  funext x
  have hcount : c.charged x = _ := congrArg Nat.cast (c.routingTable.countP_erase key _)
  have hle := hexcess x
  simp only [excess, charged] at hcount hle ⊢
  have hdecrement : (key.1, server) = x → kind.decrement (c.load (key.1, server)) = c.load (key.1, server) - 1 := by
    rintro rfl
    cases kind with
    | kvCacheAware => rfl
    | conversation => exact max_eq_right (by grind)
  grind

theorem excess_place (server : σ) (x : Role × σ) :
    update c.load (key.1, server) (c.load (key.1, server) + 1) x -
        (c.routingTable.insert key server).entries.countP (fun entry => (entry.1.1, entry.2) = x) =
      c.excess x + if (c.routingTable.get? key).map (key.1, ·) = some x then 1 else 0 := by
  have hcount : c.charged x = _ := congrArg Nat.cast (c.routingTable.countP_erase key _)
  have hold : ((c.routingTable.get? key).elim 0 fun v => if decide ((key.1, v) = x) then 1 else 0) =
      if (c.routingTable.get? key).map (key.1, ·) = some x then 1 else 0 := by
    cases c.routingTable.get? key with
    | none => rfl
    | some old => simp
  rw [Dict.countP_insert, excess]
  grind

theorem excess_exec (hexcess : ∀ x, 0 ≤ c.excess x) (op : CoordinatorOp σ) (x : Role × σ) :
    (c.exec kind op).excess x = c.excess x + if c.overwritten op = some x then 1 else 0 := by
  cases op with
  | select key => simp [exec, overwritten, excess_cancelReservation]
  | finish key => simp [exec, overwritten, excess_cancelReservation]
  | release i =>
    simp only [exec, overwritten, reduceCtorEq, if_false, add_zero]
    split
    · exact congrFun (excess_finishRequestById hexcess _) x
    · rfl
  | place i server =>
    cases hplacing : c.placing i with
    | none => simp [exec, overwritten, hplacing]
    | some key =>
      simp only [exec, overwritten, hplacing]
      exact excess_place key server x
  | refuse i =>
    simp only [exec, overwritten, reduceCtorEq, if_false, add_zero]
    split <;> rfl
  | expire timer =>
    simp only [exec, overwritten, reduceCtorEq, if_false, add_zero]
    split
    · rfl
    · exact congrFun (excess_finishRequestById hexcess _) x

theorem excess_run (hexcess : ∀ x, 0 ≤ c.excess x) (ops : List (CoordinatorOp σ)) :
    (∀ x, c.excess x ≤ (c.run kind ops).excess x) ∧ ((∀ x, (c.run kind ops).excess x = c.excess x) ↔ c.PlacesOnce kind ops) := by
  induction ops generalizing c with
  | nil => exact ⟨fun x => le_rfl, by simp [run, PlacesOnce]⟩
  | cons op ops ih =>
    have hstep : ∀ x, (c.exec kind op).excess x = _ := excess_exec hexcess op
    have hle : ∀ x, c.excess x ≤ (c.exec kind op).excess x := by
      intro x
      rw [hstep]
      split <;> omega
    obtain ⟨hrest, hiff⟩ := ih fun x => (hexcess x).trans (hle x)
    refine ⟨fun x => (hle x).trans (hrest x), ?_⟩
    rw [PlacesOnce, ← hiff]
    show (∀ x, ((c.exec kind op).run kind ops).excess x = c.excess x) ↔ _
    constructor
    · intro heq
      have hsame : ∀ x, (c.exec kind op).excess x = c.excess x := fun x =>
        le_antisymm ((hrest x).trans_eq (heq x)) (hle x)
      refine ⟨?_, fun x => (heq x).trans (hsame x).symm⟩
      cases hover : c.overwritten op with
      | none => rfl
      | some x =>
        have hx := hstep x
        rw [hsame, hover, if_pos rfl] at hx
        omega
    · rintro ⟨hover, heq⟩ x
      rw [heq, hstep, hover]
      simp

end Coordinator

end TrtLlm.Serve
