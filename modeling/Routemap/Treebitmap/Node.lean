/-
  Routemap.Treebitmap.Node

  The treebitmap node and the four recursive routines that navigate a tree of
  them by the nibbles of an address: `insertAt`, `getAt`, `removeAt` and
  `containsAt`.

  The routines of the source count `hop` up to `full_hops`.  Here the hops still
  to go, `hopsLeft = full_hops - hop`, are what the recursion is on; `hop` itself
  is carried along because the nibbles are read by it.  A `while` loop that moves
  a `&mut` cursor down the tree is the recursion that rebuilds the nodes on its
  way back up.
-/
import Routemap.Machine

namespace Routemap

variable {V : Type}

/-- Bits of an address that one node processes. -/
def STRIDE : Nat := 4

/-- A node.  `internal` has bit `b` set when the value of heap position `b`
    (`1..=15`) is present, `external` has bit `n` set when the child for nibble
    `n` (`0..=15`) is; `values` and `children` hold the present ones without gaps. -/
structure TbNode (V : Type) where
  internal : U32
  external : U32
  values : List V
  children : List (TbNode V)

/-- `TbNode::new`. -/
def TbNode.new : TbNode V := ⟨0, 0, [], []⟩

mutual
/-- Levels of the tree below and including a node. -/
def TbNode.height : TbNode V → Nat
  | ⟨_, _, _, children⟩ => heightBelow children + 1

/-- Levels of the highest tree in a list. -/
def heightBelow : List (TbNode V) → Nat
  | [] => 0
  | child :: rest => max child.height (heightBelow rest)
end

theorem height_le_heightBelow {child : TbNode V} {children : List (TbNode V)}
    (h : child ∈ children) : child.height ≤ heightBelow children := by
  induction children with
  | nil => cases h
  | cons c rest ih =>
      rw [heightBelow]
      rcases List.mem_cons.mp h with rfl | h
      · exact Nat.le_max_left _ _
      · exact Nat.le_trans (ih h) (Nat.le_max_right _ _)

/-- The nibble of `addr` at stride index `hop`. -/
def nibble (addr : U128) (addrBits hop : Nat) : M Nat := do
  let shift ← checkedSub addrBits (← checkedMul (← checkedAdd hop 1) STRIDE)
  let shift ← shiftAmount 128 shift
  pure (addr >>> shift &&& 0xF#128).toNat

/-- How many set bits of `bitmap` lie below `position`. -/
def rank (bitmap : U32) (position : Nat) : M Nat := do
  let position ← shiftAmount 32 position
  pure (countOnes (bitmap &&& (1#32 <<< position - 1#32)))

/-- The heap position in the destination node of a prefix with `relLen` bits
    left at stride `hop`; the same lines end each of the four routines. -/
def heapPos (addr : U128) (addrBits hop relLen : Nat) : M Nat := do
  let nib ← if relLen > 0 then do
      let nib ← nibble addr addrBits hop
      let shift ← shiftAmount 32 (← checkedSub STRIDE relLen)
      pure (nib >>> shift)
    else pure 0
  let one ← shiftAmount 32 relLen
  checkedAdd (1 <<< one) nib

/-- `insert_at`: the updated node, and whether a new entry was created. -/
def insertAt : TbNode V → U128 → Nat → Nat → Nat → Nat → V → M (TbNode V × Bool)
  | node, addr, addrBits, hop, 0, relLen, value => do
    let bpos ← heapPos addr addrBits hop relLen
    let idx ← rank node.internal bpos
    -- an occupied position is overwritten; a free one makes a gap in `values`
    if ← testBit node.internal bpos then
      let values ← vecSet node.values idx value
      pure ({ node with values }, false)
    else
      let values ← vecInsert node.values idx value
      let internal ← setBit node.internal bpos
      pure ({ node with internal, values }, true)
  | node, addr, addrBits, hop, hopsLeft + 1, relLen, value => do
    let nib ← nibble addr addrBits hop
    let childIdx ← rank node.external nib
    -- a child that is not there is created empty, and descended into like an old one
    let node ← if ← testBit node.external nib then pure node
      else do
        let children ← vecInsert node.children childIdx TbNode.new
        let external ← setBit node.external nib
        pure { node with external, children }
    let child ← vecGet node.children childIdx
    let hop ← checkedAdd hop 1
    let (child, isNew) ← insertAt child addr addrBits hop hopsLeft relLen value
    let children ← vecSet node.children childIdx child
    pure ({ node with children }, isNew)

/-- `get_at`. -/
def getAt : TbNode V → U128 → Nat → Nat → Nat → Nat → M (Option V)
  | node, addr, addrBits, hop, 0, relLen => do
    let bpos ← heapPos addr addrBits hop relLen
    if ← testBit node.internal bpos then
      let value ← vecGet node.values (← rank node.internal bpos)
      pure (some value)
    else pure none
  | node, addr, addrBits, hop, hopsLeft + 1, relLen => do
    let nib ← nibble addr addrBits hop
    if !(← testBit node.external nib) then pure none
    else
      let child ← vecGet node.children (← rank node.external nib)
      let hop ← checkedAdd hop 1
      getAt child addr addrBits hop hopsLeft relLen

/-- `remove_at`: the updated node, the removed value, and whether the node is
    now empty, which tells the caller to prune it. -/
def removeAt : TbNode V → U128 → Nat → Nat → Nat → Nat → M (TbNode V × Option V × Bool)
  | node, addr, addrBits, hop, 0, relLen => do
    let bpos ← heapPos addr addrBits hop relLen
    -- `(None, false)`: nothing to remove, and no ancestor is pruned
    if !(← testBit node.internal bpos) then pure (node, none, false)
    else
      let idx ← rank node.internal bpos
      let (value, values) ← vecRemove node.values idx
      let internal ← clearBit node.internal bpos
      let isEmpty := internal == 0 && node.external == 0
      pure ({ node with internal, values }, some value, isEmpty)
  | node, addr, addrBits, hop, hopsLeft + 1, relLen => do
    let nib ← nibble addr addrBits hop
    if !(← testBit node.external nib) then pure (node, none, false)
    else
      let childIdx ← rank node.external nib
      let child ← vecGet node.children childIdx
      let hop ← checkedAdd hop 1
      let (child, value, prune) ← removeAt child addr addrBits hop hopsLeft relLen
      let children ← vecSet node.children childIdx child
      let node := { node with children }
      -- the child is dropped before this node is tested itself
      let node ← if prune then do
          let (_, children) ← vecRemove node.children childIdx
          let external ← clearBit node.external nib
          pure { node with external, children }
        else pure node
      let isEmpty := node.internal == 0 && node.external == 0
      pure (node, value, isEmpty)

/-- `contains_at`. -/
def containsAt : TbNode V → U128 → Nat → Nat → Nat → Nat → M Bool
  | node, addr, addrBits, hop, 0, relLen => do
    let bpos ← heapPos addr addrBits hop relLen
    testBit node.internal bpos
  | node, addr, addrBits, hop, hopsLeft + 1, relLen => do
    let nib ← nibble addr addrBits hop
    if !(← testBit node.external nib) then pure false
    else
      let child ← vecGet node.children (← rank node.external nib)
      let hop ← checkedAdd hop 1
      containsAt child addr addrBits hop hopsLeft relLen

end Routemap
