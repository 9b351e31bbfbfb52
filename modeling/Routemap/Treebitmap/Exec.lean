/-
  Routemap.Treebitmap.Exec

  The routines of `Node` run: on a tree of the right shape none of them faults,
  and each does to the tree what the operation of `Trie` with the nibbles of the
  address does.

  A node at stride index `hop` with `h` levels below it lives in a tree of
  `hop + h` strides, `4 * (hop + h) = bits`; `full` and `rel` say that the hops
  to go stay in the tree and that left over bits do not reach below it.
-/
import Routemap.Treebitmap.Codec

namespace Routemap

open TbNode

variable {V : Type}

/-! ## Primitives -/

theorem testBit_ok (b : U32) {k : Nat} (hk : k < 32) : testBit b k = .ok (b.getLsbD k) := by
  rw [testBit, shiftAmount_ok hk, ok_bind, pure_eq_ok]
  congr 1
  have hbit : b >>> k &&& 1#32 = if b.getLsbD k then 1#32 else 0#32 := by
    apply BitVec.eq_of_getLsbD_eq
    intro i hi
    rw [BitVec.getLsbD_and, BitVec.getLsbD_ushiftRight, BitVec.getLsbD_one]
    by_cases h0 : i = 0
    · subst h0
      cases b.getLsbD k <;> simp
    · cases b.getLsbD k <;> simp [h0]
  rw [hbit]
  cases b.getLsbD k <;> rfl

theorem setBit_ok (b : U32) {k : Nat} (hk : k < 32) : setBit b k = .ok (b ||| 1#32 <<< k) := by
  rw [setBit, shiftAmount_ok hk, ok_bind, pure_eq_ok]

theorem clearBit_ok (b : U32) {k : Nat} (hk : k < 32) :
    clearBit b k = .ok (b &&& ~~~(1#32 <<< k)) := by
  rw [clearBit, shiftAmount_ok hk, ok_bind, pure_eq_ok]

theorem rank_ok (b : U32) {k : Nat} (hk : k < 32) :
    rank b k = .ok (RankVec.rank b.getLsbD k) := by
  rw [rank, shiftAmount_ok hk, ok_bind, pure_eq_ok, countOnes, RankVec.toNat_cpop_below b hk]

/-- An item just inserted is read back. -/
theorem vecGet_insertIdx {α : Type} {xs : List α} {i : Nat} (h : i ≤ xs.length) (x : α) :
    vecGet (xs.insertIdx i x) i = .ok x :=
  vecGet_ok (by rw [List.getElem?_insertIdx_self, if_pos h])

/-- Writing over an item just inserted inserts the new one. -/
theorem vecSet_insertIdx {α : Type} {xs : List α} {i : Nat} (h : i ≤ xs.length) (x y : α) :
    vecSet (xs.insertIdx i x) i y = .ok (xs.insertIdx i y) := by
  have hlt : i < (xs.insertIdx i x).length := by
    rw [List.length_insertIdx_of_le_length h]
    omega
  rw [vecSet_ok hlt, RankVec.set_insertIdx_self h]

/-- `31 - bitmap.leading_zeros()` is the highest set bit. -/
theorem highBit_ok {b : U32} (hb : b ≠ 0#32) :
    checkedSub 31 (leadingZeros b) = .ok b.toNat.log2 := by
  obtain ⟨hlt, hlog⟩ := RankVec.log2_eq_clz hb
  rw [leadingZeros, checkedSub_ok (by omega), ← hlog]

/-- `31 - q.leading_zeros()` is the number of left over bits of a heap position. -/
theorem relLen_ok {q : Nat} (hpos : 1 ≤ q) (hlt : q < 16) :
    checkedSub 31 (leadingZeros (BitVec.ofNat 32 q)) = .ok q.log2 := by
  have hnat : (BitVec.ofNat 32 q).toNat = q := by
    rw [BitVec.toNat_ofNat, Nat.mod_eq_of_lt (by omega)]
  have hne : BitVec.ofNat 32 q ≠ 0#32 := by
    intro h
    rw [h] at hnat
    simp at hnat
    omega
  rw [highBit_ok hne, hnat]

theorem nibble_ok {addr : U128} {bits hop : Nat} (hbits : bits ≤ 128)
    (hhop : 4 * (hop + 1) ≤ bits) :
    nibble addr bits hop = .ok (nib bits addr.toNat hop) := by
  have hmul : (hop + 1) * STRIDE = 4 * (hop + 1) := Nat.mul_comm _ _
  rw [nibble, checkedAdd_ok (by omega), ok_bind, checkedMul_ok (by omega), ok_bind,
    checkedSub_ok (by omega), ok_bind, shiftAmount_ok (by omega), ok_bind, pure_eq_ok, hmul]
  congr 1
  rw [BitVec.toNat_and, BitVec.toNat_ushiftRight, Nat.shiftRight_eq_div_pow,
    show (0xF#128).toNat = 2 ^ 4 - 1 from rfl, Nat.and_two_pow_sub_one_eq_mod]
  rfl

theorem heapPos_ok {addr : U128} {bits hop rel : Nat} (hbits : bits ≤ 128) (hrel : rel < 4)
    (hhop : 0 < rel → 4 * (hop + 1) ≤ bits) :
    heapPos addr bits hop rel = .ok (posAt bits addr.toNat hop rel) := by
  have hpos : posAt bits addr.toNat hop rel < 2 ^ (rel + 1) := posAt_lt hrel
  have hpow : 2 ^ (rel + 1) ≤ 2 ^ 4 := Nat.pow_le_pow_right Nat.two_pos (by omega)
  rw [heapPos]
  split
  case isTrue h0 =>
    have hsub : checkedSub STRIDE rel = .ok (4 - rel) := checkedSub_ok (Nat.le_of_lt hrel)
    have hshift : shiftAmount 32 (4 - rel) = .ok (4 - rel) := shiftAmount_ok (by omega)
    have hone : shiftAmount 32 rel = .ok rel := shiftAmount_ok (by omega)
    simp only [nibble_ok hbits (hhop h0), hsub, hshift, hone, ok_bind, pure_eq_ok,
      Nat.shiftLeft_eq, Nat.one_mul, Nat.shiftRight_eq_div_pow]
    rw [posAt] at hpos ⊢
    exact checkedAdd_ok (by omega)
  case isFalse h0 =>
    have hzero : rel = 0 := by omega
    subst hzero
    have hdiv : nib bits addr.toNat hop / 2 ^ (4 - 0) = 0 := Nat.div_eq_of_lt (nib_lt _ _ _)
    rw [posAt, hdiv]
    rfl

/-! ## Reading a node -/

section Read

variable {n : TbNode V}

theorem TbNode.NodeFit.testBit_external (fit : NodeFit n) {nib : Nat} (hnib : nib < 32) :
    testBit n.external nib = .ok (n.childAt nib).isSome := by
  rw [testBit_ok _ hnib, fit.childAt_isSome]

theorem TbNode.NodeFit.testBit_internal (fit : NodeFit n) {q : Nat} (hq : q < 32) :
    testBit n.internal q = .ok (n.valueAt q).isSome := by
  rw [testBit_ok _ hq, fit.valueAt_isSome]

theorem childAt_get {nib : Nat} {c : TbNode V} (hc : n.childAt nib = some c) :
    n.children[RankVec.rank n.external.getLsbD nib]? = some c := (RankVec.look_eq_some.mp hc).2

theorem valueAt_get {q : Nat} {v : V} (hv : n.valueAt q = some v) :
    n.values[RankVec.rank n.internal.getLsbD q]? = some v := (RankVec.look_eq_some.mp hv).2

end Read

/-! ## The four routines -/

/-- The arguments of a routine at a node with `h` levels below it, reached at
    stride index `hop`: `k` hops to go stay in the tree, and left over bits do
    not reach below it. -/
structure Descent (bits hop h k rel : Nat) : Prop where
  bits_le : bits ≤ 128
  strides : 4 * (hop + h) = bits
  full : k ≤ h
  rel_lt : rel < 4
  bottom : k = h → rel = 0

section Run

variable {addr : U128} {bits hop h k rel : Nat} {n : TbNode V}

theorem Descent.next (d : Descent bits hop (h + 1) (k + 1) rel) :
    Descent bits (hop + 1) h k rel where
  bits_le := d.bits_le
  strides := by rw [← d.strides]; omega
  full := Nat.le_of_succ_le_succ d.full
  rel_lt := d.rel_lt
  bottom hk := d.bottom (by rw [hk])

theorem Descent.slot (d : Descent bits hop h k rel) (a : Nat) :
    Slot h (pathFrom bits a hop k) (posAt bits a (hop + k) rel) :=
  slot_of_addr d.full d.rel_lt d.bottom

theorem Descent.nibble_ok (d : Descent bits hop (h + 1) k rel) :
    nibble addr bits hop = .ok (nib bits addr.toNat hop) := by
  have hstrides := d.strides
  exact Routemap.nibble_ok d.bits_le (by omega)

theorem Descent.hop_ok (d : Descent bits hop (h + 1) k rel) :
    checkedAdd hop 1 = .ok (hop + 1) := by
  have hbits := d.bits_le
  have hstrides := d.strides
  exact checkedAdd_ok (by omega)

theorem Descent.heapPos_ok (d : Descent bits hop h 0 rel) :
    heapPos addr bits hop rel = .ok (posAt bits addr.toNat hop rel) := by
  have hstrides := d.strides
  have hbot := d.bottom
  exact Routemap.heapPos_ok d.bits_le d.rel_lt (by omega)

theorem Descent.posAt_lt (d : Descent bits hop h 0 rel) (a : Nat) :
    posAt bits a hop rel < 16 := (d.slot a).lt

theorem Descent.hops_eq (bits a hop k rel : Nat) :
    posAt bits a (hop + (k + 1)) rel = posAt bits a (hop + 1 + k) rel := by
  rw [Nat.add_assoc, Nat.add_comm 1 k]

variable (addr)

/-- `getAt` reads the slot the address leads to. -/
theorem getAt_eq (hp : Packed n) (d : Descent bits hop h k rel) :
    getAt n addr bits hop k rel
      = .ok (n.lookup (pathFrom bits addr.toNat hop k) (posAt bits addr.toNat (hop + k) rel)) := by
  induction k generalizing hop h n with
  | zero =>
      -- no hop is left: the value is in this node
      have hpos := d.posAt_lt addr.toNat
      rw [getAt, d.heapPos_ok, ok_bind, hp.fit.testBit_internal (by omega), ok_bind,
        pathFrom_zero, lookup, Nat.add_zero]
      cases hv : n.valueAt (posAt bits addr.toNat hop rel) with
      | none => rfl
      | some v =>
          rw [Option.isSome_some, if_pos rfl, rank_ok _ (by omega), ok_bind,
            vecGet_ok (valueAt_get hv), ok_bind, pure_eq_ok]
  | succ k ih =>
      cases h with
      | zero => exact absurd d.full (by simp)  -- a hop is left, so there is a level below
      | succ h =>
          have hnib := nib_lt bits addr.toNat hop
          rw [getAt, d.nibble_ok, ok_bind, hp.fit.testBit_external (by omega), ok_bind,
            pathFrom_succ, lookup, Descent.hops_eq]
          cases hc : n.childAt (nib bits addr.toNat hop) with
          | none => rfl
          | some c =>
              rw [Option.isSome_some, if_neg (by decide), rank_ok _ (by omega), ok_bind,
                vecGet_ok (childAt_get hc), ok_bind, d.hop_ok, ok_bind, ih (hp.child hc) d.next,
                Option.bind_some]

/-- `containsAt` says whether the slot the address leads to is set. -/
theorem containsAt_eq (hp : Packed n) (d : Descent bits hop h k rel) :
    containsAt n addr bits hop k rel
      = .ok (n.lookup (pathFrom bits addr.toNat hop k)
          (posAt bits addr.toNat (hop + k) rel)).isSome := by
  induction k generalizing hop h n with
  | zero =>
      have hpos := d.posAt_lt addr.toNat
      rw [containsAt, d.heapPos_ok, ok_bind, hp.fit.testBit_internal (by omega),
        pathFrom_zero, lookup, Nat.add_zero]
  | succ k ih =>
      cases h with
      | zero => exact absurd d.full (by simp)
      | succ h =>
          have hnib := nib_lt bits addr.toNat hop
          rw [containsAt, d.nibble_ok, ok_bind, hp.fit.testBit_external (by omega), ok_bind,
            pathFrom_succ, lookup, Descent.hops_eq]
          cases hc : n.childAt (nib bits addr.toNat hop) with
          | none => rfl
          | some c =>
              rw [Option.isSome_some, if_neg (by decide), rank_ok _ (by omega), ok_bind,
                vecGet_ok (childAt_get hc), ok_bind, d.hop_ok, ok_bind, ih (hp.child hc) d.next,
                Option.bind_some]

/-- `insertAt` writes the slot the address leads to, and reports whether it was free. -/
theorem insertAt_eq (hp : Packed n) (d : Descent bits hop h k rel) (v : V) :
    insertAt n addr bits hop k rel v
      = .ok (n.insertPath (pathFrom bits addr.toNat hop k) (posAt bits addr.toNat (hop + k) rel) v,
          (n.lookup (pathFrom bits addr.toNat hop k)
            (posAt bits addr.toNat (hop + k) rel)).isNone) := by
  induction k generalizing hop h n with
  | zero =>
      have hpos := d.posAt_lt addr.toNat
      rw [insertAt, d.heapPos_ok, ok_bind, rank_ok _ (by omega), ok_bind,
        hp.fit.testBit_internal (by omega), ok_bind, pathFrom_zero, lookup, insertPath,
        Nat.add_zero]
      cases hv : n.valueAt (posAt bits addr.toNat hop rel) with
      | none =>
          -- a free position: the value goes in at its rank, and the bit is set
          have hle := hp.fit.values_fit.rank_le (show posAt bits addr.toNat hop rel ≤ 32 by omega)
          rw [Option.isSome_none, if_neg (by decide), vecInsert_ok hle, ok_bind,
            setBit_ok _ (by omega), ok_bind, pure_eq_ok, hp.fit.setValue_of_none hv]
          rfl
      | some w =>
          -- an occupied position: its value is overwritten, the bitmap stays
          rw [Option.isSome_some, if_pos rfl,
            vecSet_ok (hp.fit.values_fit.rank_lt (internal_bit hv)), ok_bind, pure_eq_ok,
            setValue_of_some hv]
          rfl
  | succ k ih =>
      cases h with
      | zero => exact absurd d.full (by simp)
      | succ h =>
          have hnib := nib_lt bits addr.toNat hop
          rw [insertAt, d.nibble_ok, ok_bind, rank_ok _ (by omega), ok_bind,
            hp.fit.testBit_external (by omega), ok_bind, pathFrom_succ, lookup, insertPath,
            Descent.hops_eq]
          cases hc : n.childAt (nib bits addr.toNat hop) with
          | none =>
              -- the new child is inserted, descended into and written back
              have hle := hp.fit.children_fit.rank_le (show nib bits addr.toNat hop ≤ 32 by omega)
              simp only [Option.isSome_none, Bool.false_eq_true, ↓reduceIte, vecInsert_ok hle,
                setBit_ok n.external (show nib bits addr.toNat hop < 32 by omega), ok_bind,
                pure_eq_ok, vecGet_insertIdx hle, d.hop_ok, ih packed_new d.next,
                vecSet_insertIdx hle, lookup_new, Option.bind_none, Option.getD_none,
                hp.fit.setChild_of_none hc]
          | some c =>
              -- the child is descended into and written back
              have hlt := hp.fit.children_fit.rank_lt (external_bit hc)
              simp only [Option.isSome_some, ↓reduceIte, pure_eq_ok, ok_bind,
                vecGet_ok (childAt_get hc), d.hop_ok, ih (hp.child hc) d.next, vecSet_ok hlt,
                Option.bind_some, Option.getD_some, setChild_of_some hc]

/-- `removeAt` clears the slot the address leads to and returns what was in it;
    the prune signal is that something was removed and nothing is left. -/
theorem removeAt_eq (hp : Packed n) (d : Descent bits hop h k rel) :
    removeAt n addr bits hop k rel
      = .ok (n.removePath (pathFrom bits addr.toNat hop k) (posAt bits addr.toNat (hop + k) rel),
          n.lookup (pathFrom bits addr.toNat hop k) (posAt bits addr.toNat (hop + k) rel),
          (n.lookup (pathFrom bits addr.toNat hop k)
            (posAt bits addr.toNat (hop + k) rel)).isSome
          && (n.removePath (pathFrom bits addr.toNat hop k)
            (posAt bits addr.toNat (hop + k) rel)).isEmpty) := by
  induction k generalizing hop h n with
  | zero =>
      have hpos := d.posAt_lt addr.toNat
      rw [removeAt, d.heapPos_ok, ok_bind, hp.fit.testBit_internal (by omega), ok_bind,
        pathFrom_zero, lookup, removePath, Nat.add_zero]
      cases hv : n.valueAt (posAt bits addr.toNat hop rel) with
      | none =>
          rw [hp.fit.internal_clear hv]
          rfl
      | some v =>
          simp only [Option.isSome_some, Bool.not_true, Bool.false_eq_true, ↓reduceIte,
            rank_ok n.internal (show posAt bits addr.toNat hop rel < 32 by omega), ok_bind,
            vecRemove_ok (valueAt_get hv),
            clearBit_ok n.internal (show posAt bits addr.toNat hop rel < 32 by omega), pure_eq_ok,
            internal_bit hv, Bool.true_and]
          rfl
  | succ k ih =>
      cases h with
      | zero => exact absurd d.full (by simp)
      | succ h =>
          have hnib := nib_lt bits addr.toNat hop
          rw [removeAt, d.nibble_ok, ok_bind, hp.fit.testBit_external (by omega), ok_bind,
            pathFrom_succ, lookup, removePath, Descent.hops_eq]
          cases hc : n.childAt (nib bits addr.toNat hop) with
          | none => rfl
          | some c =>
              have hlt := hp.fit.children_fit.rank_lt (external_bit hc)
              simp only [Option.isSome_some, Bool.not_true, Bool.false_eq_true, ↓reduceIte,
                rank_ok n.external (show nib bits addr.toNat hop < 32 by omega), ok_bind,
                vecGet_ok (childAt_get hc), d.hop_ok, ih (hp.child hc) d.next, vecSet_ok hlt,
                Option.bind_some]
              cases hv : c.lookup (pathFrom bits addr.toNat (hop + 1) k)
                  (posAt bits addr.toNat (hop + 1 + k) rel) with
              | none =>
                  -- nothing is removed below, and the child goes back where it was
                  have hsame := set_of_get (childAt_get hc)
                  have hne := not_isEmpty_of_childAt hc
                  rw [isEmpty] at hne
                  simp only [(hp.child hc).removePath_of_none hv, hsame, hne, Option.isSome_none,
                    Option.isNone_none, Bool.false_and, Bool.false_eq_true, ↓reduceIte, pure_eq_ok,
                    ok_bind]
                  cases n
                  rfl
              | some v =>
                  simp only [Option.isSome_some, Option.isNone_some, Bool.true_and,
                    Bool.false_eq_true, ↓reduceIte]
                  cases hempty : (c.removePath (pathFrom bits addr.toNat (hop + 1) k)
                      (posAt bits addr.toNat (hop + 1 + k) rel)).isEmpty with
                  | true =>
                      -- the last entry below is gone, and the child with it
                      simp only [↓reduceIte, vecRemove_ok (List.getElem?_set_self hlt), ok_bind,
                        clearBit_ok n.external (show nib bits addr.toNat hop < 32 by omega),
                        pure_eq_ok, List.eraseIdx_set_eq]
                      rfl
                  | false =>
                      simp only [Bool.false_eq_true, ↓reduceIte, pure_eq_ok, ok_bind]
                      rw [setChild_of_some hc]
                      rfl

end Run
end Routemap
