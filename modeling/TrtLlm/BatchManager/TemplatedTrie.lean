import TrtLlm.Lib.Dict

/-!
# The templated trie

A node is named by the keys on the way from it up to the root, its own key first: the parent of `key :: node` is `node`
and the root is `[]`. Every node but the root, which is never pruned, is listed with its values, one for each value key,
in the iteration order of the hash maps.
-/

namespace TrtLlm.BatchManager

open Dict

structure Trie (κ ω β : Type*) [DecidableEq κ] where
  nodes : Dict (List κ) (Dict ω β)
  /-- A node hangs below the root or below another node. -/
  closed : ∀ key node, (nodes.get? (key :: node)).isSome → node = [] ∨ (nodes.get? node).isSome
  rootless : nodes.get? [] = none

namespace Trie

set_option linter.unusedSectionVars false

variable {κ ω β : Type*} [DecidableEq κ] [DecidableEq ω]

def empty : Trie κ ω β := ⟨∅, fun _ _ h => by simp at h, rfl⟩

variable (t : Trie κ ω β) (node : List κ)

def Contains : Prop := node = [] ∨ (t.nodes.get? node).isSome

instance (t : Trie κ ω β) (node : List κ) : Decidable (t.Contains node) := inferInstanceAs (Decidable (_ ∨ _))

theorem contains_root : t.Contains [] := .inl rfl

def getValue (vkey : ω) : Option β := (t.nodes.get? node).bind fun values => values.get? vkey

def nextKeys : List κ :=
  t.nodes.keys.filterMap fun below =>
    match below with
    | [] => none
    | key :: parent => if parent = node then some key else none

def hasChildren : Bool := !(t.nextKeys node).isEmpty

def findMatchingNode (key : κ) : Option (List κ) :=
  if t.Contains (key :: node) then some (key :: node) else none

/-- The values of the children that have one for `vkey`, with the children's keys. -/
def getChildKeyValues (vkey : ω) : List (κ × β) :=
  (t.nextKeys node).filterMap fun key => (t.getValue (key :: node) vkey).map fun value => (key, value)

variable {t : Trie κ ω β} {node : List κ}

theorem mem_nextKeys {key : κ} : key ∈ t.nextKeys node ↔ t.Contains (key :: node) := by
  unfold nextKeys Contains
  rw [List.mem_filterMap, or_iff_right (List.cons_ne_nil _ _), Option.isSome_iff_exists]
  constructor
  · rintro ⟨below, hbelow, hkey⟩
    cases below with
    | nil => cases hkey
    | cons key' parent =>
      dsimp only at hkey
      split at hkey
      · rename_i hparent
        cases hkey
        exact hparent ▸ mem_keys_iff.1 hbelow
      · cases hkey
  · intro h
    exact ⟨key :: node, mem_keys_iff.2 h, if_pos rfl⟩

theorem hasChildren_iff : t.hasChildren node = true ↔ ∃ key, t.Contains (key :: node) := by
  unfold hasChildren
  rw [Bool.not_eq_true', List.isEmpty_eq_false_iff_exists_mem]
  exact exists_congr fun key => mem_nextKeys

/-- `findOrInsertChild`: a child without values, unless the child is there. -/
def insertNode (t : Trie κ ω β) (node : List κ) (hnode : t.Contains node) (key : κ) : Trie κ ω β where
  nodes := t.nodes.upsert (key :: node) fun values => values.getD ∅
  closed key' node' h := by
    rw [get?_upsert] at h ⊢
    by_cases hnew : key' :: node' = key :: node
    · obtain ⟨-, rfl⟩ := List.cons.inj hnew
      rcases hnode with hroot | hsome
      · exact Or.inl hroot
      · refine Or.inr ?_
        split
        · rfl
        · exact hsome
    · rw [if_neg hnew] at h
      refine (t.closed key' node' h).imp_right fun hsome => ?_
      split
      · rfl
      · exact hsome
  rootless := by
    rw [get?_upsert, if_neg (List.cons_ne_nil _ _).symm, t.rootless]

theorem contains_insertNode {hnode : t.Contains node} {key : κ} {node' : List κ} :
    (t.insertNode node hnode key).Contains node' ↔ node' = key :: node ∨ t.Contains node' := by
  unfold Contains insertNode
  rw [get?_upsert]
  split
  · rename_i heq
    simp [heq]
  · rename_i hne
    simp [hne]

variable (t)

/-- `insertNodes` below `node`: the nodes of a whole prefix, created where they are missing. -/
def insertNodesBelow : (t : Trie κ ω β) → (node : List κ) → t.Contains node → List κ → Trie κ ω β × List (List κ)
  | t, _, _, [] => (t, [])
  | t, node, hnode, key :: keys =>
    let rest := insertNodesBelow (t.insertNode node hnode key) (key :: node) (contains_insertNode.mpr (Or.inl rfl)) keys
    (rest.1, (key :: node) :: rest.2)

def insertNodes (t : Trie κ ω β) (prefixKey : List κ) : Trie κ ω β × List (List κ) :=
  t.insertNodesBelow [] t.contains_root prefixKey

def nodesBelow (node : List κ) : List κ → List (List κ)
  | [] => []
  | key :: keys => (key :: node) :: nodesBelow (key :: node) keys

theorem insertNodesBelow_spec (node : List κ) (hnode : t.Contains node) (keys : List κ) :
    (t.insertNodesBelow node hnode keys).2 = nodesBelow node keys ∧
      ∀ node' vkey, (t.insertNodesBelow node hnode keys).1.getValue node' vkey = t.getValue node' vkey := by
  induction keys generalizing t node with
  | nil => exact ⟨rfl, fun _ _ => rfl⟩
  | cons key keys ih =>
    refine ⟨by simp only [insertNodesBelow, nodesBelow, ih], fun node' vkey => ?_⟩
    simp only [insertNodesBelow, ih]
    unfold getValue insertNode
    rw [get?_upsert]
    split
    · rename_i heq
      rw [heq]
      cases t.nodes.get? (key :: node) with
      | none => rfl
      | some values => rfl
    · rfl

theorem insertNodes_nodes (keys : List κ) : (t.insertNodes keys).2 = nodesBelow [] keys :=
  (insertNodesBelow_spec t [] t.contains_root keys).1

@[simp] theorem getValue_insertNodes (keys : List κ) (node : List κ) (vkey : ω) :
    (t.insertNodes keys).1.getValue node vkey = t.getValue node vkey :=
  (insertNodesBelow_spec t [] t.contains_root keys).2 node vkey

variable {t}

theorem getElem?_nodesBelow {keys : List κ} {i : ℕ} {below : List κ} (h : (nodesBelow node keys)[i]? = some below) :
    ∃ key, keys[i]? = some key ∧ below.head? = some key ∧ below.length = node.length + i + 1 := by
  induction keys generalizing node i with
  | nil => cases h
  | cons key keys ih =>
    cases i with
    | zero =>
      cases h
      exact ⟨key, rfl, rfl, rfl⟩
    | succ i =>
      have hbelow := h
      obtain ⟨key', hkey, hhead, hlength⟩ := ih hbelow
      refine ⟨key', hkey, hhead, ?_⟩
      rw [hlength, List.length_cons]
      omega

variable (t) (node)

/-- Change the values of a node. A node that has been pruned meanwhile is no longer part of the trie, and a
change to it cannot be seen. -/
def updateValues (f : Dict ω β → Dict ω β) : Trie κ ω β :=
  if hnode : (t.nodes.get? node).isSome then
    { nodes := t.nodes.upsert node fun values => f (values.getD ∅)
      closed := by
        intro key' node' h
        rw [get?_upsert] at h ⊢
        have hold : (t.nodes.get? (key' :: node')).isSome := by
          split at h
          · rename_i heq
            exact heq ▸ hnode
          · exact h
        refine (t.closed key' node' hold).imp_right fun hsome => ?_
        split
        · rfl
        · exact hsome
      rootless := by
        rw [get?_upsert]
        split
        · rename_i heq
          rw [← heq, t.rootless] at hnode
          cases hnode
        · exact t.rootless }
  else t

/-- `trySetValue` of a slot that is free. -/
def setValue (vkey : ω) (value : β) : Trie κ ω β := t.updateValues node fun values => values.insert vkey value

/-- The first half of `clearValue`. -/
def eraseValue (vkey : ω) : Trie κ ω β := t.updateValues node fun values => values.erase vkey

/-- `canBeDeleted`: a node without values and without children. -/
def CanBeDeleted : Prop := (t.nodes.get? node).any (fun values => values.entries.isEmpty) = true ∧ t.hasChildren node = false

variable {t} {node}

instance (t : Trie κ ω β) (node : List κ) : Decidable (t.CanBeDeleted node) := inferInstanceAs (Decidable (_ ∧ _))

/-- `clearNode` of a child that can be deleted. -/
def eraseNode (t : Trie κ ω β) (node : List κ) (hnode : t.CanBeDeleted node) : Trie κ ω β where
  nodes := t.nodes.erase node
  closed key' node' h := by
    rw [get?_erase] at h ⊢
    split at h
    · cases h
    refine (t.closed key' node' h).imp_right fun hsome => ?_
    rw [if_neg]
    · exact hsome
    · rintro rfl
      have hchild : t.hasChildren node' = true := hasChildren_iff.mpr ⟨key', Or.inr h⟩
      rw [hnode.2] at hchild
      cases hchild
  rootless := by
    rw [get?_erase, t.rootless]
    split <;> rfl

/-- The cascade of `clearValue` and `clearNode`: delete the node, then its parent, as long as nothing is left
there. -/
def prune (t : Trie κ ω β) : List κ → Trie κ ω β
  | [] => t
  | key :: node =>
    if hnode : t.CanBeDeleted (key :: node) then prune (t.eraseNode (key :: node) hnode) node else t

/-- `clearValue` of a slot that is taken. -/
def clearValue (t : Trie κ ω β) (node : List κ) (vkey : ω) : Trie κ ω β := (t.eraseValue node vkey).prune node

/-! ### Which nodes the cascade leaves -/

end Trie

end TrtLlm.BatchManager
