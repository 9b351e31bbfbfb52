/-
  Routemap.Treebitmap.Table

  `RouteMap`: the root node and the entry counter, the public operations over
  them, and the lookup loop.
-/
import Routemap.Ipnetx
import Routemap.Treebitmap.Node

namespace Routemap

/-- `RouteMap<A, V>`. -/
structure RouteMap (A V : Type) where
  root : TbNode V
  count : Nat

/-- The longest match in one node on the way along an address whose nibble there
    is `nib`: the hit with the highest position, or else the best match so far. -/
def longestMatchNode {V : Type} (node : TbNode V) (nib hop : Nat) (best : Option (V × Nat)) :
    M (Option (V × Nat)) := do
  -- `match_mask`: the positions of the top 0, 1, 2 and 3 bits of the nibble
  let bit0 ← setBit 0 1
  let bit1 ← setBit 0 (2 ||| nib >>> 3)
  let bit2 ← setBit 0 (4 ||| nib >>> 2)
  let bit3 ← setBit 0 (8 ||| nib >>> 1)
  let hits := node.internal &&& (bit0 ||| bit1 ||| bit2 ||| bit3)
  if hits != 0 then
    -- the highest position is the longest prefix
    let bpos ← checkedSub 31 (leadingZeros hits)
    let relLen ← checkedSub 31 (leadingZeros (BitVec.ofNat 32 bpos))
    let value ← vecGet node.values (← rank node.internal bpos)
    let len ← checkedAdd (← checkedMul hop STRIDE) relLen
    pure (some (value, len))
  else pure best

/-- The `while hop < total_strides` loop of `longest_match_impl`, with
    `stridesLeft` iterations to go: the node, the best match so far and the hop
    it leaves with, by its `break` or by running out of strides. -/
def longestMatchLoop {V : Type} (addr : U128) (addrBits : Nat) :
    Nat → TbNode V → Option (V × Nat) → Nat → M (TbNode V × Option (V × Nat) × Nat)
  | 0, node, best, hop => pure (node, best, hop)
  | stridesLeft + 1, node, best, hop => do
    let nib ← nibble addr addrBits hop
    let best ← longestMatchNode node nib hop best
    -- `break`: with `hop` short of the strides, the check after the loop is off
    if !(← testBit node.external nib) then pure (node, best, hop)
    else
      let child ← vecGet node.children (← rank node.external nib)
      let hop ← checkedAdd hop 1
      longestMatchLoop addr addrBits stridesLeft child best hop

/-- What follows the loop of `longest_match_impl`: where every stride was taken,
    the node at the end holds at most a full-length prefix, and that one wins. -/
def longestMatchLast {V : Type} (addrBits totalStrides : Nat) (node : TbNode V)
    (best : Option (V × Nat)) (hop : Nat) : M (Option (V × Nat)) := do
  if hop == totalStrides then
    if ← testBit node.internal 1 then
      let value ← vecGet node.values (← rank node.internal 1)
      pure (some (value, addrBits))
    else pure best
  else pure best

namespace RouteMap

variable {A V : Type} [IpAddress A]

/-- `RouteMap::new`. -/
def new : RouteMap A V := ⟨TbNode.new, 0⟩

def insert (t : RouteMap A V) (pfx : IpPrefix A) (value : V) : M (RouteMap A V) := do
  let pfx := IpAddress.masked pfx
  let addr := IpAddress.toU128 (IpAddress.ip pfx)
  let len := IpAddress.mask pfx
  let (root, isNew) ←
    insertAt t.root addr (IpAddress.bits A) 0 (len / STRIDE) (len % STRIDE) value
  pure { root, count := if isNew then t.count + 1 else t.count }

def longestMatchImpl (t : RouteMap A V) (addr : U128) : M (Option (V × Nat)) := do
  let addrBits := IpAddress.bits A
  let totalStrides := addrBits / STRIDE
  let (node, best, hop) ← longestMatchLoop addr addrBits totalStrides t.root none 0
  longestMatchLast addrBits totalStrides node best hop

def longestMatch (t : RouteMap A V) (addr : A) : M (Option V) := do
  let best ← t.longestMatchImpl (IpAddress.toU128 addr)
  pure (best.map fun (v, _) => v)

def longestMatchEntry (t : RouteMap A V) (addr : A) : M (Option (IpPrefix A × V)) := do
  let addr := IpAddress.toU128 addr
  match ← t.longestMatchImpl addr with
  | none => pure none
  | some (value, bestLen) =>
    -- the address still has its host bits here, `masked` clears them
    let pfx ← newPrefix (← fromU128 addr : A) (← asU8 bestLen)
    pure (some (IpAddress.masked pfx, value))

def remove (t : RouteMap A V) (pfx : IpPrefix A) : M (RouteMap A V × Option V) := do
  let pfx := IpAddress.masked pfx
  let addr := IpAddress.toU128 (IpAddress.ip pfx)
  let len := IpAddress.mask pfx
  let (root, value, _) ←
    removeAt t.root addr (IpAddress.bits A) 0 (len / STRIDE) (len % STRIDE)
  let count ← if value.isSome then checkedSub t.count 1 else pure t.count
  pure ({ root, count }, value)

def get (t : RouteMap A V) (pfx : IpPrefix A) : M (Option V) :=
  let pfx := IpAddress.masked pfx
  let addr := IpAddress.toU128 (IpAddress.ip pfx)
  let len := IpAddress.mask pfx
  getAt t.root addr (IpAddress.bits A) 0 (len / STRIDE) (len % STRIDE)

def contains (t : RouteMap A V) (pfx : IpPrefix A) : M Bool :=
  let pfx := IpAddress.masked pfx
  let addr := IpAddress.toU128 (IpAddress.ip pfx)
  let len := IpAddress.mask pfx
  containsAt t.root addr (IpAddress.bits A) 0 (len / STRIDE) (len % STRIDE)

/-- `RouteMap::len`. -/
def len (t : RouteMap A V) : Nat := t.count

def isEmpty (t : RouteMap A V) : Bool := t.count == 0

/-- `RouteMap::clear`: the root is reset in place. -/
def clear (_t : RouteMap A V) : RouteMap A V := ⟨⟨0, 0, [], []⟩, 0⟩

/-- `RouteMap::from_iter`. -/
def fromIter (pairs : List (IpPrefix A × V)) : M (RouteMap A V) :=
  pairs.foldlM (fun t (pfx, value) => t.insert pfx value) new

end RouteMap
end Routemap
