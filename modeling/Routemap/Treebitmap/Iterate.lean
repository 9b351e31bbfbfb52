/-
  Routemap.Treebitmap.Iterate

  The iterator returns the entries of the tree.  A frame stands for the part of
  its node that its cursors have not passed, and the stack for what is pending in
  its frames, from the top down.  A turn of the loop takes the first pending entry
  or leaves what is pending as it is (`step_ok`), so `next` returns the entries
  one by one and `collect` all of them.
-/
import Routemap.Treebitmap.Entries
import Routemap.Treebitmap.Iter
import Routemap.Treebitmap.Refine

namespace Routemap

open TbNode

/-! ## Accumulated addresses -/

/-- Bits or-ed in below the bits of an address that are set are added to it. -/
theorem toNat_or_shift {x : U128} {r sh j : Nat} (hr : r < 2 ^ j) (hsh : sh + j ≤ 128)
    (hx : x.toNat % 2 ^ (sh + j) = 0) :
    (x ||| BitVec.ofNat 128 r <<< sh).toNat = x.toNat + r * 2 ^ sh := by
  have hmul : r * 2 ^ sh < 2 ^ (sh + j) := by
    rw [Nat.pow_add, Nat.mul_comm]
    exact Nat.mul_lt_mul_of_pos_left hr (Nat.two_pow_pos _)
  have hle : 2 ^ (sh + j) ≤ 2 ^ 128 := Nat.pow_le_pow_right Nat.two_pos hsh
  have hrlt : r < 2 ^ 128 :=
    Nat.lt_of_le_of_lt (Nat.le_mul_of_pos_right _ (Nat.two_pow_pos sh))
      (Nat.lt_of_lt_of_le hmul hle)
  rw [BitVec.toNat_or, BitVec.toNat_shiftLeft, BitVec.toNat_ofNat, Nat.mod_eq_of_lt hrlt,
    Nat.shiftLeft_eq, Nat.mod_eq_of_lt (Nat.lt_of_lt_of_le hmul hle),
    ← Nat.div_add_mod x.toNat (2 ^ (sh + j)), hx, Nat.add_zero]
  exact (Nat.two_pow_add_eq_or_of_lt hmul _).symm

/-- The address whose top bits are the nibbles of a path, and the rest zero. -/
theorem addr_of_path {bits a : Nat} {path : List Nat} (hpath : ∀ n ∈ path, n < 16)
    (hlen : 4 * path.length ≤ bits) (ha : a = pathValue path * 2 ^ (bits - 4 * path.length)) :
    a < 2 ^ bits ∧ a % 2 ^ (bits - 4 * path.length) = 0 ∧ pathFrom bits a 0 path.length = path := by
  have hlt : a < 2 ^ bits := by
    rw [ha, show bits = 4 * path.length + (bits - 4 * path.length) by omega, Nat.pow_add,
      show 4 * path.length + (bits - 4 * path.length) - 4 * path.length
        = bits - 4 * path.length by omega]
    exact Nat.mul_lt_mul_of_pos_right (pathValue_lt hpath) (Nat.two_pow_pos _)
  refine ⟨hlt, by rw [ha, Nat.mul_mod_left], ?_⟩
  refine pathValue_inj (length_pathFrom ..) (fun n hn => pathFrom_lt hn) hpath ?_
  rw [pathValue_pathFrom hlt hlen, Network.topBits, ha, Nat.mul_div_cancel _ (Nat.two_pow_pos _)]

section Frame

variable {V : Type}

/-- The nibbles that a frame has accumulated. -/
def IterFrame.path (bits : Nat) (frame : IterFrame V) : List Nat :=
  pathFrom bits frame.addr.toNat 0 frame.hop

/-- The entries a frame and the frames pushed above it have still to return. -/
def IterFrame.pending (bits : Nat) (frame : IterFrame V) : List (SlotKey × V) :=
  frame.node.valuesFrom (frame.path bits) frame.internalCursor
    ++ frame.node.childrenFrom (bits / 4 - frame.hop) (frame.path bits) frame.externalCursor

/-- A frame of the iterator: a well formed node at its depth, and an address of
    whole nibbles. -/
structure IterFrame.Ok (bits : Nat) (frame : IterFrame V) : Prop where
  hop_le : 4 * frame.hop ≤ bits
  shape : Shape (bits / 4 - frame.hop) frame.node
  addr_lt : frame.addr.toNat < 2 ^ bits
  host_zero : frame.addr.toNat % 2 ^ (bits - 4 * frame.hop) = 0

variable {bits : Nat} {frame : IterFrame V}

/-- Moving the cursors leaves the node and the address. -/
theorem IterFrame.Ok.setCursors (ok : frame.Ok bits) (ic ec : Nat) :
    IterFrame.Ok bits { frame with internalCursor := ic, externalCursor := ec } :=
  ⟨ok.hop_le, ok.shape, ok.addr_lt, ok.host_zero⟩

/-- Where its values are done, what a frame has left is below its children. -/
theorem IterFrame.pending_of_done (frame : IterFrame V)
    (hdone : frame.node.valuesFrom (frame.path bits) frame.internalCursor = []) :
    frame.pending bits
      = frame.node.childrenFrom (bits / 4 - frame.hop) (frame.path bits)
        frame.externalCursor := by
  rw [IterFrame.pending, hdone, List.nil_append]

theorem IterFrame.path_lt {n : Nat} (hn : n ∈ frame.path bits) : n < 16 := pathFrom_lt hn

@[simp] theorem IterFrame.length_path (bits : Nat) (frame : IterFrame V) :
    (frame.path bits).length = frame.hop := length_pathFrom ..

theorem IterFrame.Ok.addr_eq (ok : frame.Ok bits) :
    frame.addr.toNat = pathValue (frame.path bits) * 2 ^ (bits - 4 * frame.hop) := by
  rw [IterFrame.path, pathValue_pathFrom ok.addr_lt ok.hop_le, Network.topBits,
    Nat.div_mul_cancel (Nat.dvd_of_mod_eq_zero ok.host_zero)]

end Frame

section Family

variable {A V : Type} [IpAddress A]

/-- The slot of a prefix, with the value it comes with. -/
def slotEntry (e : IpPrefix A × V) : SlotKey × V :=
  (((network e.1).path, (network e.1).pos), e.2)

variable {frame : IterFrame V}

/-- The address and the length that `entryAt` and `next` build from a position are
    those of the network in the slot. -/
theorem IterFrame.Ok.addr_ofSlot (ok : frame.Ok (IpAddress.bits A)) {q : Nat}
    (s : Slot (levels A) (frame.path (IpAddress.bits A)) q) {x : U128}
    (hx : x.toNat = frame.addr.toNat
      + (q - 2 ^ q.log2) * 2 ^ (IpAddress.bits A - (4 * frame.hop + q.log2))) :
    x = (Network.ofSlot (bits_le A) (stride_dvd A) s).addr := by
  have hlen := (Network.ofSlot (bits_le A) (stride_dvd A) s).len_le
  rw [Network.ofSlot_len, IterFrame.length_path] at hlen
  apply BitVec.eq_of_toNat_eq
  rw [hx, Network.addr_eq, Network.ofSlot_top, Network.ofSlot_len, IterFrame.length_path,
    ok.addr_eq, Nat.add_mul]
  congr 1
  rw [show IpAddress.bits A - 4 * frame.hop
      = q.log2 + (IpAddress.bits A - (4 * frame.hop + q.log2)) by omega, Nat.pow_add,
    ← Nat.mul_assoc, Nat.mul_comm (pathValue _)]

theorem IterFrame.Ok.slot (ok : frame.Ok (IpAddress.bits A)) {q : Nat} {v : V}
    (hv : frame.node.valueAt q = some v) : Slot (levels A) (frame.path (IpAddress.bits A)) q := by
  obtain ⟨hpos, hlt, hbot⟩ := ok.shape.nodeOk.valueAt_pos hv
  have hhop := ok.hop_le
  have hlevels : levels A = IpAddress.bits A / 4 := rfl
  refine ⟨?_, fun n hn => IterFrame.path_lt hn, hpos, hlt, ?_⟩
  · rw [IterFrame.length_path]
    omega
  · intro hlen
    rw [IterFrame.length_path] at hlen
    exact hbot (by omega)

/-- `entryAddr` is the address of the network in the slot. -/
theorem IterFrame.Ok.entryAddr (ok : frame.Ok (IpAddress.bits A)) {q : Nat}
    (s : Slot (levels A) (frame.path (IpAddress.bits A)) q) :
    Iter.entryAddr (IpAddress.bits A) frame.hop frame.addr q.log2 (q - 2 ^ q.log2)
      = .ok (Network.ofSlot (bits_le A) (stride_dvd A) s).addr := by
  have hbits := bits_le A
  have hlen := (Network.ofSlot (bits_le A) (stride_dvd A) s).len_le
  rw [Network.ofSlot_len, IterFrame.length_path] at hlen
  rw [Iter.entryAddr]
  split
  case isTrue hrel =>
    have hsub : IpAddress.bits A - frame.hop * STRIDE - q.log2
        = IpAddress.bits A - (4 * frame.hop + q.log2) := by
      rw [STRIDE]
      omega
    have hlow : q - 2 ^ q.log2 < 2 ^ q.log2 := by
      have hhigh := Nat.lt_log2_self (n := q)
      rw [Nat.pow_succ] at hhigh
      omega
    have hhost := ok.host_zero
    rw [show IpAddress.bits A - 4 * frame.hop
      = IpAddress.bits A - (4 * frame.hop + q.log2) + q.log2 by omega] at hhost
    rw [checkedMul_ok (by rw [STRIDE]; omega), ok_bind, checkedSub_ok (by rw [STRIDE]; omega),
      ok_bind, checkedSub_ok (by rw [STRIDE]; omega), ok_bind, hsub, shiftAmount_ok (by omega),
      ok_bind, pure_eq_ok]
    exact congrArg Except.ok (ok.addr_ofSlot s (toNat_or_shift hlow (by omega) hhost))
  case isFalse hrel =>
    have hlog : q.log2 = 0 := by omega
    have hone : q = 1 := by
      have hhigh := Nat.lt_log2_self (n := q)
      have hpos := s.pos
      rw [hlog] at hhigh
      omega
    refine congrArg Except.ok (ok.addr_ofSlot s ?_)
    rw [hlog, hone, Nat.pow_zero, Nat.sub_self, Nat.zero_mul, Nat.add_zero]

/-- The address and the length built at a position are those of the network in the slot. -/
theorem IterFrame.Ok.entryPos (ok : frame.Ok (IpAddress.bits A)) {q : Nat}
    (s : Slot (levels A) (frame.path (IpAddress.bits A)) q) :
    Iter.entryPos (IpAddress.bits A) frame.hop frame.addr q
      = .ok ((Network.ofSlot (bits_le A) (stride_dvd A) s).addr,
          (Network.ofSlot (bits_le A) (stride_dvd A) s).len) := by
  have hbits := bits_le A
  have hpos := s.pos
  have hlen := (Network.ofSlot (bits_le A) (stride_dvd A) s).len_le
  have hmul : frame.hop * STRIDE + q.log2 = (Network.ofSlot (bits_le A) (stride_dvd A) s).len := by
    rw [Network.ofSlot_len, IterFrame.length_path, STRIDE, Nat.mul_comm]
  have hlog : 2 ^ q.log2 ≤ q := Nat.log2_self_le (by omega)
  have hlog4 : q.log2 < 4 := (Nat.log2_lt (by omega)).mpr s.lt
  rw [Iter.entryPos, relLen_ok hpos s.lt, ok_bind, shiftAmount_ok (by omega), ok_bind,
    Nat.shiftLeft_eq, Nat.one_mul, checkedSub_ok hlog, ok_bind, checkedMul_ok (by omega), ok_bind,
    checkedAdd_ok (by omega), ok_bind, hmul, ok.entryAddr s, ok_bind, pure_eq_ok]

/-- The entry built at a position is the one of its slot. -/
theorem IterFrame.Ok.entryAt (ok : frame.Ok (IpAddress.bits A)) {q : Nat} {v : V}
    (hv : frame.node.valueAt q = some v) :
    ∃ pfx : IpPrefix A, Iter.entryAt (IpAddress.bits A) frame q = .ok (pfx, v)
      ∧ IpAddress.masked pfx = pfx
      ∧ slotEntry (pfx, v) = ((frame.path (IpAddress.bits A), q), v) := by
  have s := ok.slot hv
  have hbits := bits_le A
  obtain ⟨hpos, hlt, -⟩ := ok.shape.nodeOk.valueAt_pos hv
  have hlen := (Network.ofSlot (bits_le A) (stride_dvd A) s).len_le
  refine ⟨ofNetwork (Network.ofSlot (bits_le A) (stride_dvd A) s), ?_, masked_ofNetwork _, ?_⟩
  · rw [Iter.entryAt, ok.entryPos s, ok_bind]
    dsimp only
    rw [rank_ok _ (by omega), ok_bind, vecGet_ok (valueAt_get hv), ok_bind,
      fromU128_ok (Network.addr_lt _), ok_bind, asU8_ok (by omega), ok_bind,
      newPrefix_ok (new_ofNetwork _), ok_bind, pure_eq_ok]
  · rw [slotEntry, network_ofNetwork, Network.ofSlot_path, Network.ofSlot_pos]

/-- The address accumulated for a child is that of the path with the nibble added. -/
theorem IterFrame.Ok.childAddr (ok : frame.Ok (IpAddress.bits A)) {nib : Nat} (hnib : nib < 16)
    (hnext : 4 * (frame.hop + 1) ≤ IpAddress.bits A) {x : U128}
    (hx : x = frame.addr ||| BitVec.ofNat 128 nib <<< (IpAddress.bits A - 4 * (frame.hop + 1))) :
    x.toNat < 2 ^ IpAddress.bits A
      ∧ x.toNat % 2 ^ (IpAddress.bits A - 4 * (frame.hop + 1)) = 0
      ∧ pathFrom (IpAddress.bits A) x.toNat 0 (frame.hop + 1)
        = frame.path (IpAddress.bits A) ++ [nib] := by
  have hbits := bits_le A
  -- the nibble goes where the accumulated address is still zero
  have hhost := ok.host_zero
  rw [show IpAddress.bits A - 4 * frame.hop
    = IpAddress.bits A - 4 * (frame.hop + 1) + 4 by omega] at hhost
  have haddr := toNat_or_shift (x := frame.addr) (r := nib) (j := 4) hnib (by omega) hhost
  have hnibbles : ∀ n ∈ frame.path (IpAddress.bits A) ++ [nib], n < 16 := by
    intro n hn
    rcases List.mem_append.mp hn with h | h
    · exact IterFrame.path_lt h
    · rw [List.mem_singleton.mp h]
      exact hnib
  have hlen : (frame.path (IpAddress.bits A) ++ [nib]).length = frame.hop + 1 := by
    rw [List.length_append, IterFrame.length_path, List.length_singleton]
  have hvalue : x.toNat = pathValue (frame.path (IpAddress.bits A) ++ [nib])
      * 2 ^ (IpAddress.bits A - 4 * (frame.hop + 1)) := by
    rw [hx, haddr, ok.addr_eq, pathValue_concat, Nat.add_mul,
      show IpAddress.bits A - 4 * frame.hop
        = 4 + (IpAddress.bits A - 4 * (frame.hop + 1)) by omega, Nat.pow_add, ← Nat.mul_assoc,
      Nat.mul_comm _ (2 ^ 4)]
  rw [← hlen] at hnext hvalue ⊢
  exact addr_of_path hnibbles hnext hvalue

theorem childPos_ok {bits hop : Nat} (hbits : bits ≤ 128) (hnext : 4 * (hop + 1) ≤ bits)
    (addr : U128) (nib : Nat) :
    Iter.childPos bits hop addr nib
      = .ok (hop + 1, addr ||| BitVec.ofNat 128 nib <<< (bits - 4 * (hop + 1))) := by
  have hmul : (hop + 1) * STRIDE = 4 * (hop + 1) := Nat.mul_comm _ _
  rw [Iter.childPos, checkedAdd_ok (by omega), ok_bind, checkedMul_ok (by omega), ok_bind,
    checkedSub_ok (by omega), ok_bind, shiftAmount_ok (by omega), ok_bind, pure_eq_ok, hmul]

/-- The frame pushed for a child is a frame of the iterator. -/
theorem IterFrame.Ok.childFrame (ok : frame.Ok (IpAddress.bits A)) {nib : Nat} {c : TbNode V}
    (hc : frame.node.childAt nib = some c) :
    ∃ child : IterFrame V, Iter.childFrame (IpAddress.bits A) frame nib = .ok child
      ∧ child.Ok (IpAddress.bits A)
      ∧ child.pending (IpAddress.bits A)
        = c.entries (IpAddress.bits A / 4 - (frame.hop + 1))
          (frame.path (IpAddress.bits A) ++ [nib]) := by
  obtain ⟨hnib, hpos⟩ := ok.shape.nodeOk.childAt_lt hc
  have hbits := bits_le A
  have hdvd := stride_dvd A
  have hhop := ok.hop_le
  have hnext : 4 * (frame.hop + 1) ≤ IpAddress.bits A := by omega
  have hlevel : IpAddress.bits A / 4 - frame.hop = IpAddress.bits A / 4 - (frame.hop + 1) + 1 := by
    omega
  have hshape : Shape (IpAddress.bits A / 4 - (frame.hop + 1)) c :=
    Shape.child (hlevel ▸ ok.shape) hc
  obtain ⟨hlt, hzero, hpath⟩ := ok.childAddr hnib hnext rfl
  refine ⟨⟨c, frame.hop + 1,
    frame.addr ||| BitVec.ofNat 128 nib <<< (IpAddress.bits A - 4 * (frame.hop + 1)), 1, 0⟩,
    ?_, ⟨hnext, hshape, hlt, hzero⟩, ?_⟩
  · rw [Iter.childFrame, childPos_ok hbits hnext, ok_bind]
    dsimp only
    rw [rank_ok _ (by omega), ok_bind, vecGet_ok (childAt_get hc), ok_bind, pure_eq_ok]
  · rw [IterFrame.pending, IterFrame.path, hpath, hshape.entries_eq]

/-! ## One turn -/

namespace Iter

/-- What an iterator has still to return. -/
def pending (it : Iter A V) : List (SlotKey × V) :=
  it.stack.flatMap (IterFrame.pending (IpAddress.bits A))

/-- A state of the iterator of a well formed table. -/
structure Ok (it : Iter A V) : Prop where
  addrBits_eq : it.addrBits = IpAddress.bits A
  frames : ∀ frame ∈ it.stack, frame.Ok (IpAddress.bits A)

variable {it : Iter A V} {below : List (IterFrame V)}

/-- Where the values of the top frame are done, the turn goes on to its next
    child, or back to the frame below. -/
theorem descend_ok (hbits : it.addrBits = IpAddress.bits A) (ok : frame.Ok (IpAddress.bits A))
    (hbelow : ∀ f ∈ below, f.Ok (IpAddress.bits A))
    (hdone : frame.node.valuesFrom (frame.path (IpAddress.bits A)) frame.internalCursor = []) :
    ∃ it', it.descend frame below = .ok (.again it') ∧ it'.Ok
      ∧ it'.pending = frame.pending (IpAddress.bits A)
        ++ below.flatMap (IterFrame.pending (IpAddress.bits A)) := by
  -- without a child left, what is pending in the frame is nothing
  have hpop : frame.node.childrenFrom (IpAddress.bits A / 4 - frame.hop)
      (frame.path (IpAddress.bits A)) frame.externalCursor = [] →
      Iter.pending (A := A) { it with stack := below } = frame.pending (IpAddress.bits A)
        ++ below.flatMap (IterFrame.pending (IpAddress.bits A)) := by
    intro hnil
    rw [frame.pending_of_done hdone, hnil]
    rfl
  rw [descend]
  split
  case isFalse hec =>
    refine ⟨_, rfl, ⟨hbits, hbelow⟩, hpop ?_⟩
    exact childrenFrom_of_exhausted _ _ _ (by omega)
  case isTrue hec =>
    rw [shiftAmount_ok (by omega), ok_bind]
    dsimp only
    split
    case isTrue hzero =>
      refine ⟨_, rfl, ⟨hbits, hbelow⟩, hpop ?_⟩
      exact childrenFrom_of_shift_zero (by simpa using hzero) _ _
    case isFalse hne =>
      obtain ⟨c, hc⟩ := ok.shape.nodeOk.fit.exists_child_of_shift (by simpa using hne)
      obtain ⟨hnib, -⟩ := ok.shape.nodeOk.childAt_lt hc
      obtain ⟨child, hchild, hchildOk, hpending⟩ := ok.childFrame hc
      rw [checkedAdd_ok (by omega), ok_bind, checkedAdd_ok (by omega), ok_bind, hbits, hchild,
        ok_bind]
      refine ⟨_, rfl, ⟨rfl, ?_⟩, ?_⟩
      · exact List.forall_mem_cons.mpr
          ⟨hchildOk, List.forall_mem_cons.mpr ⟨ok.setCursors _ _, hbelow⟩⟩
      · -- the child's entries move from this frame to the one pushed
        have hmoved (ec : Nat) :=
          IterFrame.pending_of_done { frame with externalCursor := ec } hdone
        rw [Iter.pending, List.flatMap_cons, List.flatMap_cons, hpending, hmoved,
          frame.pending_of_done hdone, childrenFrom_cursor hnib hc, List.append_assoc]
        rfl

/-- **One turn** returns the first pending entry, or leaves the pending entries as
    they are; it ends the iteration only when none is pending. -/
theorem step_ok (ok : it.Ok) :
    (it.step = .ok .done ∧ it.pending = [])
    ∨ (∃ entry it', it.step = .ok (.yield entry it') ∧ it'.Ok
        ∧ IpAddress.masked entry.1 = entry.1 ∧ it.pending = slotEntry entry :: it'.pending)
    ∨ (∃ it', it.step = .ok (.again it') ∧ it'.Ok ∧ it'.pending = it.pending) := by
  rw [step]
  cases hstack : it.stack with
  | nil => exact Or.inl ⟨rfl, by rw [pending, hstack]; rfl⟩
  | cons frame below =>
      obtain ⟨hok, hbelow⟩ := List.forall_mem_cons.mp (hstack ▸ ok.frames)
      have hpend : it.pending = frame.pending (IpAddress.bits A)
          ++ below.flatMap (IterFrame.pending (IpAddress.bits A)) := by
        rw [pending, hstack, List.flatMap_cons]
      dsimp only
      split
      case isFalse hic =>
        -- the internal cursor is at 16: the values are done
        obtain ⟨it', hdesc, hok', hp⟩ := descend_ok ok.addrBits_eq hok hbelow
          (valuesFrom_of_exhausted _ _ (by omega))
        exact Or.inr (Or.inr ⟨it', hdesc, hok', hp.trans hpend.symm⟩)
      case isTrue hic =>
        rw [shiftAmount_ok (by omega), ok_bind]
        split
        case isFalse hzero =>
          -- no value is left in the node: the cursor moves past the last position
          have hclear : frame.node.internal >>> frame.internalCursor = 0#32 := by simpa using hzero
          have hdone := valuesFrom_of_shift_zero hclear (frame.path (IpAddress.bits A))
          have hpast := valuesFrom_of_exhausted frame.node (frame.path (IpAddress.bits A))
            (Nat.le_refl 16)
          obtain ⟨it', hdesc, hok', hp⟩ := descend_ok ok.addrBits_eq
            (hok.setCursors 16 frame.externalCursor) hbelow hpast
          refine Or.inr (Or.inr ⟨it', hdesc, hok', ?_⟩)
          have hmoved :=
            IterFrame.pending_of_done { frame with internalCursor := 16 } hpast
          rw [hp, hpend, hmoved, frame.pending_of_done hdone]
          rfl
        case isTrue hne =>
          -- the first set bit from the cursor on is the first pending entry
          obtain ⟨v, hv⟩ := hok.shape.nodeOk.fit.exists_value_of_shift (by simpa using hne)
          obtain ⟨-, hlt, -⟩ := hok.shape.nodeOk.valueAt_pos hv
          obtain ⟨pfx, hentry, hmasked, hslot⟩ := hok.entryAt hv
          rw [checkedAdd_ok (by omega), ok_bind, checkedAdd_ok (by omega), ok_bind,
            ok.addrBits_eq, hentry, ok_bind]
          refine Or.inr (Or.inl ⟨(pfx, v), _, rfl, ⟨rfl, ?_⟩, hmasked, ?_⟩)
          · exact List.forall_mem_cons.mpr ⟨hok.setCursors _ _, hbelow⟩
          · rw [hpend, hslot, IterFrame.pending, valuesFrom_cursor hlt hv]
            rfl

/-! ## Calls of next -/

theorem next_of_done (h : it.step = .ok .done) : it.next = .ok (none, it) := by
  rw [next]
  split <;> simp_all

theorem next_of_yield {entry : IpPrefix A × V} {it' : Iter A V}
    (h : it.step = .ok (.yield entry it')) : it.next = .ok (some entry, it') := by
  rw [next]
  split <;> simp_all

theorem next_of_again {it' : Iter A V} (h : it.step = .ok (.again it')) : it.next = it'.next := by
  rw [next]
  split <;> simp_all

/-- **A call of `next`** returns the first pending entry, or `None` when there is none. -/
theorem next_ok {it : Iter A V} (ok : it.Ok) :
    (∃ it', it.next = .ok (none, it') ∧ it'.Ok ∧ it.pending = [] ∧ it'.pending = [])
    ∨ (∃ entry it', it.next = .ok (some entry, it') ∧ it'.Ok
        ∧ IpAddress.masked entry.1 = entry.1 ∧ it.pending = slotEntry entry :: it'.pending) := by
  rcases step_ok ok with
    ⟨hstep, hnil⟩ | ⟨entry, it', hstep, ok', hmasked, hp⟩ | ⟨it', hstep, ok', hp⟩
  · exact Or.inl ⟨it, next_of_done hstep, ok, hnil, hnil⟩
  · exact Or.inr ⟨entry, it', next_of_yield hstep, ok', hmasked, hp⟩
  · have hlt := step_cost hstep rfl
    rw [next_of_again hstep, ← hp]
    exact next_ok ok'
termination_by it.cost

theorem collect_of_none {it' : Iter A V} (h : it.next = .ok (none, it')) : it.collect = .ok [] := by
  rw [collect]
  split <;> simp_all

theorem collect_of_some {entry : IpPrefix A × V} {it' : Iter A V} {rest : List (IpPrefix A × V)}
    (h : it.next = .ok (some entry, it')) (hrest : it'.collect = .ok rest) :
    it.collect = .ok (entry :: rest) := by
  rw [collect]
  split <;> simp_all

/-- An exhausted iterator stays exhausted. -/
theorem take_of_exhausted {it : Iter A V} (ok : it.Ok) (hnil : it.pending = []) (n : Nat) :
    it.take n = .ok [] := by
  induction n generalizing it with
  | zero => rfl
  | succ n ih =>
      rcases next_ok ok with ⟨it', hnext, ok', -, hnil'⟩ | ⟨entry, it', -, -, -, hp⟩
      · rw [take, hnext]
        change (do let rest ← it'.take n; pure ([] ++ rest)) = _
        rw [ih ok' hnil']
        rfl
      · rw [hnil] at hp
        cases hp

/-- **The whole iteration** returns the pending entries in their order. -/
theorem collect_ok {it : Iter A V} (ok : it.Ok) :
    ∃ es, it.collect = .ok es ∧ es.map slotEntry = it.pending
      ∧ (∀ e ∈ es, IpAddress.masked e.1 = e.1) ∧ ∀ n, it.take n = .ok (es.take n) := by
  rcases next_ok ok with ⟨it', hnext, ok', hnil, hnil'⟩ | ⟨entry, it', hnext, ok', hmasked, hp⟩
  · refine ⟨[], collect_of_none hnext, hnil.symm, by simp, ?_⟩
    intro n
    rw [take_of_exhausted ok hnil, List.take_nil]
  · have hlt := next_cost hnext
    obtain ⟨es, hcollect, hmap, hall, htake⟩ := collect_ok ok'
    refine ⟨entry :: es, collect_of_some hnext hcollect, by rw [List.map_cons, hmap, hp], ?_, ?_⟩
    · intro e he
      rcases List.mem_cons.mp he with rfl | he
      · exact hmasked
      · exact hall e he
    · intro n
      cases n with
      | zero => rfl
      | succ n =>
          rw [take, hnext]
          change (do let rest ← it'.take n; pure ([entry] ++ rest)) = _
          rw [htake n]
          rfl
termination_by it.cost

end Iter

end Family
end Routemap
