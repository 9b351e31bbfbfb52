/-
  Routemap.Arena.Table

  `ArenaTable`, the archived binary trie: one node per bit of a prefix, in one
  growing `Vec`, linked by `u32` indices.  Removed nodes are unlinked and stay in
  the `Vec`.

  A loop `for depth in 0..len` is a recursion on the iterations to go.  An index
  is a `Nat`; the cast `nodes.len() as u32` that makes one wraps.
-/
import Routemap.Ipnetx

namespace Routemap

/-- The index that stands for no child: `u32::MAX`. -/
def NULL : Nat := 2 ^ 32 - 1

/-- `ArenaNode<V>`. -/
structure ArenaNode (V : Type) where
  children : Fin 2 → Nat
  value : Option V

/-- `ArenaNode::new`. -/
def ArenaNode.new {V : Type} : ArenaNode V := ⟨fun _ => NULL, none⟩

/-- `self.children[bit] = child`. -/
def ArenaNode.setChild {V : Type} (node : ArenaNode V) (bit : Fin 2) (child : Nat) : ArenaNode V :=
  { node with children := Function.update node.children bit child }

/-- `self.children[0] == NULL && self.children[1] == NULL`. -/
def ArenaNode.noChild {V : Type} (node : ArenaNode V) : Bool :=
  node.children 0 == NULL && node.children 1 == NULL

/-- The cast `as usize` of a bit. -/
def bitIndex (n : Nat) : Fin 2 := Fin.ofNat 2 n

/-- The bit of `addr` at `depth`, as an index. -/
def bitAt (addr : U128) (addrBits depth : Nat) : M (Fin 2) := do
  let shift ← checkedSub (← checkedSub addrBits 1) depth
  let shift ← shiftAmount 128 shift
  pure (bitIndex (addr >>> shift &&& 1#128).toNat)

/-- `nodes[cur].children[bit] = NULL`. -/
def unlink {V : Type} (nodes : List (ArenaNode V)) (cur : Nat) (bit : Fin 2) :
    M (List (ArenaNode V)) := do
  let node ← vecGet nodes cur
  vecSet nodes cur (node.setChild bit NULL)

section Loops

variable {V : Type} (addr : U128) (addrBits : Nat)

/-- The loop of `insert`: the nodes, and the index of the one it ends at. -/
def insertLoop : Nat → Nat → List (ArenaNode V) → Nat → M (List (ArenaNode V) × Nat)
  | 0, _, nodes, cur => pure (nodes, cur)
  | left + 1, depth, nodes, cur => do
    let bit ← bitAt addr addrBits depth
    let childIdx := (← vecGet nodes cur).children bit
    if childIdx == NULL then
      -- `self.nodes.len() as u32`, taken before the push
      let newIdx := nodes.length % 2 ^ 32
      let nodes := nodes ++ [ArenaNode.new]
      let node ← vecGet nodes cur
      let nodes ← vecSet nodes cur (node.setChild bit newIdx)
      insertLoop left (depth + 1) nodes newIdx
    else insertLoop left (depth + 1) nodes childIdx

/-- The loop of `longest_match`. -/
def matchLoop (nodes : List (ArenaNode V)) : Nat → Nat → Nat → Option V → M (Option V)
  | 0, _, _, best => pure best
  | left + 1, depth, cur, best => do
    let bit ← bitAt addr addrBits depth
    let childIdx := (← vecGet nodes cur).children bit
    if childIdx == NULL then pure best
    else
      let node ← vecGet nodes childIdx
      matchLoop nodes left (depth + 1) childIdx (node.value.or best)

/-- The loop of `contains`, and the check after it. -/
def containsLoop (nodes : List (ArenaNode V)) : Nat → Nat → Nat → M Bool
  | 0, _, cur => do pure (← vecGet nodes cur).value.isSome
  | left + 1, depth, cur => do
    let bit ← bitAt addr addrBits depth
    let childIdx := (← vecGet nodes cur).children bit
    if childIdx == NULL then pure false
    else containsLoop nodes left (depth + 1) childIdx

/-- `remove_recursive`: the nodes, the removed value, and whether the node is now
    empty, which tells the caller to unlink it. -/
def removeRecursive : Nat → Nat → List (ArenaNode V) → Nat →
    M (List (ArenaNode V) × Option V × Bool)
  | 0, _, nodes, cur => do
    let node ← vecGet nodes cur
    let nodes ← vecSet nodes cur { node with value := none }
    pure (nodes, node.value, (← vecGet nodes cur).noChild)
  | left + 1, depth, nodes, cur => do
    let bit ← bitAt addr addrBits depth
    let childIdx := (← vecGet nodes cur).children bit
    if childIdx == NULL then pure (nodes, none, false)
    else
      -- the bottom of the recursion clears the value; the way back up unlinks
      let (nodes, value, pruneChild) ← removeRecursive left (← checkedAdd depth 1) nodes childIdx
      let nodes ← if pruneChild then unlink nodes cur bit else pure nodes
      let node ← vecGet nodes cur
      pure (nodes, value, node.value.isNone && node.noChild)

end Loops

/-- `ArenaTable<A, V>`. -/
structure ArenaTable (A V : Type) where
  nodes : List (ArenaNode V)

namespace ArenaTable

variable {A V : Type} [IpAddress A]

/-- `ArenaTable::new`. -/
def new : ArenaTable A V := ⟨[ArenaNode.new]⟩

def insert (t : ArenaTable A V) (pfx : IpPrefix A) (value : V) : M (ArenaTable A V) := do
  let pfx := IpAddress.masked pfx
  let addr := IpAddress.toU128 (IpAddress.ip pfx)
  let len := IpAddress.mask pfx
  let (nodes, cur) ← insertLoop addr (IpAddress.bits A) len 0 t.nodes 0
  let node ← vecGet nodes cur
  let nodes ← vecSet nodes cur { node with value := some value }
  pure ⟨nodes⟩

def longestMatch (t : ArenaTable A V) (addr : A) : M (Option V) := do
  let addr := IpAddress.toU128 addr
  let root ← vecGet t.nodes 0
  matchLoop addr (IpAddress.bits A) t.nodes (IpAddress.bits A) 0 0 root.value

def remove (t : ArenaTable A V) (pfx : IpPrefix A) : M (ArenaTable A V × Option V) := do
  let pfx := IpAddress.masked pfx
  let addr := IpAddress.toU128 (IpAddress.ip pfx)
  let (nodes, value, _) ←
    removeRecursive addr (IpAddress.bits A) (IpAddress.mask pfx) 0 t.nodes 0
  pure (⟨nodes⟩, value)

def contains (t : ArenaTable A V) (pfx : IpPrefix A) : M Bool :=
  let pfx := IpAddress.masked pfx
  let addr := IpAddress.toU128 (IpAddress.ip pfx)
  containsLoop addr (IpAddress.bits A) t.nodes (IpAddress.mask pfx) 0 0

end ArenaTable
end Routemap
