/-
  Routemap.Treebitmap.Iter

  The iterator over all entries: an explicit stack of frames, each with the
  address accumulated so far and two cursors.  `step` is one turn of the `loop`
  in `Iter::next`; `next` turns it until an entry comes out or the stack is
  empty, and terminates because every turn lowers `cost`.
-/
import Routemap.Treebitmap.Table

namespace Routemap

/-- `IterFrame`. -/
structure IterFrame (V : Type) where
  node : TbNode V
  hop : Nat
  addr : U128
  internalCursor : Nat
  externalCursor : Nat

/-- `Iter`.  The stack is kept with its top first. -/
structure Iter (A V : Type) where
  stack : List (IterFrame V)
  addrBits : Nat

/-- How one turn of the loop ends: the iterator is exhausted, an entry is
    returned, or the loop goes round again. -/
inductive Turn (A V : Type) [IpAddress A] where
  | done
  | yield (entry : IpPrefix A × V) (it : Iter A V)
  | again (it : Iter A V)

/-- The iterator a turn leaves, unless it ended the iteration. -/
def Turn.rest? {A V : Type} [IpAddress A] : Turn A V → Option (Iter A V)
  | .done => none
  | .yield _ it => some it
  | .again it => some it

namespace Iter

variable {A V : Type} [IpAddress A]

/-- The address of an entry: its left over bits behind the accumulated nibbles.
    Without left over bits there is nothing to shift (by 128, at the root). -/
def entryAddr (addrBits hop : Nat) (addr : U128) (relLen relBits : Nat) : M U128 :=
  if relLen > 0 then do
    let shift ← checkedSub (← checkedSub addrBits (← checkedMul hop STRIDE)) relLen
    let shift ← shiftAmount 128 shift
    pure (addr ||| BitVec.ofNat 128 relBits <<< shift)
  else pure addr

/-- The address and the length of the entry at position `bpos`, at a stride index and
    the address accumulated on the way to it. -/
def entryPos (addrBits hop : Nat) (addr : U128) (bpos : Nat) : M (U128 × Nat) := do
  let relLen ← checkedSub 31 (leadingZeros (BitVec.ofNat 32 bpos))
  let relBits ← checkedSub bpos (1 <<< (← shiftAmount 32 relLen))
  let fullLen ← checkedAdd (← checkedMul hop STRIDE) relLen
  let fullAddr ← entryAddr addrBits hop addr relLen relBits
  pure (fullAddr, fullLen)

/-- The prefix and the value at position `bpos` of the node of a frame. -/
def entryAt (addrBits : Nat) (frame : IterFrame V) (bpos : Nat) : M (IpPrefix A × V) := do
  let (fullAddr, fullLen) ← entryPos addrBits frame.hop frame.addr bpos
  let idx ← rank frame.node.internal bpos
  let value ← vecGet frame.node.values idx
  let pfx ← newPrefix (← fromU128 fullAddr : A) (← asU8 fullLen)
  pure (pfx, value)

/-- The stride index and the address accumulated for the child of nibble `nib`. -/
def childPos (addrBits hop : Nat) (addr : U128) (nib : Nat) : M (Nat × U128) := do
  let hop ← checkedAdd hop 1
  let shift ← checkedSub addrBits (← checkedMul hop STRIDE)
  let shift ← shiftAmount 128 shift
  pure (hop, addr ||| BitVec.ofNat 128 nib <<< shift)

/-- The frame pushed for the child of nibble `nib`. -/
def childFrame (addrBits : Nat) (frame : IterFrame V) (nib : Nat) : M (IterFrame V) := do
  let (hop, addr) ← childPos addrBits frame.hop frame.addr nib
  let node ← vecGet frame.node.children (← rank frame.node.external nib)
  pure { node, hop, addr, internalCursor := 1, externalCursor := 0 }

/-- A frame that is pushed stands at a child, at the start of both its cursors. -/
theorem childFrame_eq_ok {addrBits nib : Nat} {frame child : IterFrame V}
    (h : childFrame addrBits frame nib = .ok child) :
    ∃ hop addr node, childPos addrBits frame.hop frame.addr nib = .ok (hop, addr)
      ∧ node ∈ frame.node.children
      ∧ child = { node, hop, addr, internalCursor := 1, externalCursor := 0 } := by
  simp only [childFrame, bind_eq_ok, vecGet_eq_ok, pure_eq_ok, Except.ok.injEq] at h
  obtain ⟨⟨hop, addr⟩, hpos, idx, -, node, hget, rfl⟩ := h
  exact ⟨hop, addr, node, hpos, List.mem_of_getElem? hget, rfl⟩

/-- The second half of a turn: push the next child of the top frame, or pop it. -/
def descend (it : Iter A V) (frame : IterFrame V) (below : List (IterFrame V)) :
    M (Turn A V) := do
  let ec := frame.externalCursor
  if ec ≤ 15 then
    let above := frame.node.external >>> (← shiftAmount 32 ec)
    -- no child is left: the source moves the cursor to 16 and pops the frame
    if above == 0 then pure (.again { it with stack := below })
    else
      let nib ← checkedAdd ec (trailingZeros above)
      let cursor ← checkedAdd nib 1
      let child ← childFrame it.addrBits frame nib
      let frame := { frame with externalCursor := cursor }
      pure (.again { it with stack := child :: frame :: below })
  else pure (.again { it with stack := below })

/-- One turn of the loop in `Iter::next`. -/
def step (it : Iter A V) : M (Turn A V) :=
  match it.stack with
  | [] => pure .done
  | frame :: below => do
    let ic := frame.internalCursor
    if ic ≤ 15 then
      let above := frame.node.internal >>> (← shiftAmount 32 ic)
      if above != 0 then
        let bpos ← checkedAdd ic (trailingZeros above)
        let cursor ← checkedAdd bpos 1
        let entry ← entryAt it.addrBits frame bpos
        let frame := { frame with internalCursor := cursor }
        pure (.yield entry { it with stack := frame :: below })
      else
        -- no value is left: on to the children within the same turn
        descend it { frame with internalCursor := 16 } below
    else descend it frame below

/-! ## Termination -/

/-- What a turn that does not end the iteration does to the stack. -/
inductive Moves (addrBits : Nat) : List (IterFrame V) → List (IterFrame V) → Prop
  /-- The top frame is done. -/
  | pop (frame : IterFrame V) (below : List (IterFrame V)) : Moves addrBits (frame :: below) below
  /-- The internal cursor of the top frame moves past the position of the entry that is returned. -/
  | scan (frame : IterFrame V) (below : List (IterFrame V)) {cursor : Nat}
      (hic : frame.internalCursor ≤ 15) (hcursor : frame.internalCursor < cursor) :
      Moves addrBits (frame :: below) ({ frame with internalCursor := cursor } :: below)
  /-- The external cursor of the top frame moves past the nibble of the child that is pushed. -/
  | push (frame : IterFrame V) (below : List (IterFrame V)) {cursor nib : Nat}
      {child : IterFrame V} (hic : frame.internalCursor ≤ cursor) (hec : frame.externalCursor ≤ 15)
      (hnib : frame.externalCursor ≤ nib) (hchild : childFrame addrBits frame nib = .ok child) :
      Moves addrBits (frame :: below)
        (child :: { frame with internalCursor := cursor, externalCursor := nib + 1 } :: below)

theorem descend_moves {it : Iter A V} {frame : IterFrame V} {below : List (IterFrame V)}
    {cursor : Nat} {turn : Turn A V} (hic : frame.internalCursor ≤ cursor)
    (h : it.descend { frame with internalCursor := cursor } below = .ok turn) :
    ∃ it', turn = .again it' ∧ Moves it.addrBits (frame :: below) it'.stack := by
  rw [descend] at h
  split at h
  case isFalse => exact ⟨_, (Except.ok.inj h).symm, .pop frame below⟩
  case isTrue hec =>
    simp only [bind_eq_ok] at h
    obtain ⟨k, -, h⟩ := h
    split at h
    · exact ⟨_, (Except.ok.inj h).symm, .pop frame below⟩
    · simp only [bind_eq_ok, checkedAdd_eq_ok] at h
      obtain ⟨nib, ⟨-, rfl⟩, cursor, ⟨-, rfl⟩, child, hchild, h⟩ := h
      exact ⟨_, (Except.ok.inj h).symm, .push frame below hic hec (Nat.le_add_right _ _) hchild⟩

theorem step_moves {it it' : Iter A V} {turn : Turn A V} (h : it.step = .ok turn)
    (hrest : turn.rest? = some it') : Moves it.addrBits it.stack it'.stack := by
  rw [step] at h
  split at h
  case h_1 =>
    cases h
    cases hrest
  case h_2 frame below hstack =>
    rw [hstack]
    dsimp only at h
    split at h
    case isTrue hic =>
      simp only [bind_eq_ok] at h
      obtain ⟨k, -, h⟩ := h
      split at h
      · simp only [bind_eq_ok, checkedAdd_eq_ok] at h
        obtain ⟨bpos, ⟨-, rfl⟩, cursor, ⟨-, rfl⟩, entry, -, h⟩ := h
        cases h
        cases hrest
        exact .scan frame below hic (by omega)
      · obtain ⟨it'', rfl, hmoves⟩ := descend_moves (by omega) h
        cases hrest
        exact hmoves
    case isFalse =>
      obtain ⟨it'', rfl, hmoves⟩ := descend_moves (Nat.le_refl _) h
      cases hrest
      exact hmoves

/-- A bound on the turns a frame still takes, with all the frames pushed above
    it: its unscanned positions, and for each unscanned nibble a child, whose
    tree is lower. -/
def frameCost (frame : IterFrame V) : Nat :=
  (16 - frame.internalCursor)
    + (16 - frame.externalCursor) * (64 ^ heightBelow frame.node.children + 1) + 1

/-- The bound for the whole stack. -/
def cost (it : Iter A V) : Nat := (it.stack.map frameCost).sum

theorem childFrame_cost {addrBits nib : Nat} {frame child : IterFrame V}
    (h : childFrame addrBits frame nib = .ok child) :
    frameCost child < 64 ^ heightBelow frame.node.children + 1 := by
  obtain ⟨hop, addr, node, -, hmem, rfl⟩ := childFrame_eq_ok h
  have hheight := height_le_heightBelow hmem
  have hnode : node.height = heightBelow node.children + 1 := by
    cases node
    rw [TbNode.height]
  have hpow : 64 ^ (heightBelow node.children + 1) ≤ 64 ^ heightBelow frame.node.children :=
    Nat.pow_le_pow_right (Nat.succ_pos _) (by omega)
  have hpos : 0 < 64 ^ heightBelow node.children := Nat.pow_pos (Nat.succ_pos _)
  rw [Nat.pow_succ] at hpow
  simp only [frameCost]
  omega

theorem Moves.cost {addrBits : Nat} {stack stack' : List (IterFrame V)}
    (h : Moves addrBits stack stack') :
    (stack'.map frameCost).sum < (stack.map frameCost).sum := by
  cases h with
  | pop frame =>
      simp only [List.map_cons, List.sum_cons, frameCost]
      omega
  | scan frame below hic hcursor =>
      simp only [List.map_cons, List.sum_cons, frameCost]
      omega
  | @push frame below cursor nib child hic hec hnib hchild =>
      have hcost := childFrame_cost hchild
      -- the scanned nibbles pay for the child
      have hscan : (16 - (nib + 1)) * (64 ^ heightBelow frame.node.children + 1)
          + (64 ^ heightBelow frame.node.children + 1)
          ≤ (16 - frame.externalCursor) * (64 ^ heightBelow frame.node.children + 1) := by
        rw [← Nat.succ_mul]
        exact Nat.mul_le_mul_right _ (by omega)
      simp only [List.map_cons, List.sum_cons]
      simp only [frameCost] at hcost ⊢
      omega

/-- Every turn that does not end the iteration lowers the cost. -/
theorem step_cost {it it' : Iter A V} {turn : Turn A V} (h : it.step = .ok turn)
    (hrest : turn.rest? = some it') : it'.cost < it.cost := (step_moves h hrest).cost

/-- `Iter::next`: the entry returned, and the iterator it leaves. -/
def next (it : Iter A V) : M (Option (IpPrefix A × V) × Iter A V) :=
  match _h : it.step with
  | .error e => .error e
  | .ok .done => .ok (none, it)
  | .ok (.yield entry it') => .ok (some entry, it')
  | .ok (.again it') => next it'
termination_by it.cost
decreasing_by exact step_cost _h rfl

/-- A call of `next` that returns an entry lowers the cost. -/
theorem next_cost {it it' : Iter A V} {entry : IpPrefix A × V}
    (h : it.next = .ok (some entry, it')) : it'.cost < it.cost := by
  rw [next] at h
  split at h
  case h_1 => cases h
  case h_2 => cases h
  case h_3 hstep =>
    cases h
    exact step_cost hstep rfl
  case h_4 it'' hstep =>
    have hlt := step_cost hstep rfl
    exact Nat.lt_trans (next_cost h) hlt
termination_by it.cost

/-- The entries of the iterator run to exhaustion, in the order it returns them. -/
def collect (it : Iter A V) : M (List (IpPrefix A × V)) :=
  match _h : it.next with
  | .error e => .error e
  | .ok (none, _) => .ok []
  | .ok (some entry, it') => do
    let rest ← collect it'
    pure (entry :: rest)
termination_by it.cost
decreasing_by exact next_cost _h

/-- The entries of the first `n` calls of `next`. -/
def take : Nat → Iter A V → M (List (IpPrefix A × V))
  | 0, _ => pure []
  | n + 1, it => do
    let (entry, it) ← it.next
    let rest ← take n it
    pure (entry.toList ++ rest)

end Iter

/-- The capacity that `RouteMap::iter` reserves for the stack: `total_strides + 1`. -/
def iterCapacity (A : Type) [IpAddress A] : Nat := IpAddress.bits A / STRIDE + 1

/-- `RouteMap::iter`. -/
def RouteMap.iter {A V : Type} [IpAddress A] (t : RouteMap A V) : Iter A V where
  stack := [{ node := t.root, hop := 0, addr := 0, internalCursor := 1, externalCursor := 0 }]
  addrBits := IpAddress.bits A

end Routemap
