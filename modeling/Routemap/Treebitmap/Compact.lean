/-
  Routemap.Treebitmap.Compact

  The compact array of a node: a bitmap and a `Vec` with one item for each set
  bit, found at the number of set bits below.  Both halves of a node are one,
  `internal` with `values` and `external` with `children`.  The routines of `Node`
  read and write the values of their last node and the children on the way there
  by `lookAt`, `insertItem`, `replaceItem` and `removeItem`.  These are the
  operations of a sparse map on the positions `0..=31`.
-/
import Routemap.Treebitmap.Exec

namespace Routemap

open RankVec (Fits look)

variable {α V : Type}

/-! ## Operations -/

/-- `Some(xs[rank(b, q)])` when bit `q` of `b` is set, else `None`. -/
def lookAt (b : U32) (xs : List α) (q : Nat) : M (Option α) := do
  if ← testBit b q then
    let x ← vecGet xs (← rank b q)
    pure (some x)
  else pure none

/-- `xs.insert(rank(b, p), x)` and `b |= 1 << p`. -/
def insertItem (b : U32) (xs : List α) (p : Nat) (x : α) : M (U32 × List α) := do
  let xs ← vecInsert xs (← rank b p) x
  let b ← setBit b p
  pure (b, xs)

/-- `xs[rank(b, p)] = x`. -/
def replaceItem (b : U32) (xs : List α) (p : Nat) (x : α) : M (List α) := do
  vecSet xs (← rank b p) x

/-- `xs.remove(rank(b, p))` and `b &= !(1 << p)`: the item removed, and the rest. -/
def removeItem (b : U32) (xs : List α) (p : Nat) : M (α × U32 × List α) := do
  let (x, xs) ← vecRemove xs (← rank b p)
  let b ← clearBit b p
  pure (x, b, xs)

/-- `lookAt` is the test of the bit and, where it is set, the read at its rank. -/
theorem lookAt_bind {β : Type} (b : U32) (xs : List α) (p : Nat) (f : Option α → M β) :
    lookAt b xs p >>= f = (do
      if ← testBit b p then
        let x ← vecGet xs (← rank b p)
        f (some x)
      else f none) := by
  rw [lookAt, bind_assoc]
  refine bind_congr fun bit => ?_
  cases bit with
  | false => rfl
  | true => simp only [↓reduceIte, bind_assoc, pure_bind]

/-! ## In the routines -/

section Routines

variable (n : TbNode V) (addr : U128) (bits hop rel : Nat)

/-! ### The values -/

/-- `get_at` reads the values of its last node. -/
theorem getAt_lookAt :
    getAt n addr bits hop 0 rel
      = (do lookAt n.internal n.values (← heapPos addr bits hop rel)) := rfl

/-- `remove_at` removes an item from the values of its last node. -/
theorem removeAt_removeItem :
    removeAt n addr bits hop 0 rel = (do
      let bpos ← heapPos addr bits hop rel
      if !(← testBit n.internal bpos) then pure (n, none, false)
      else
        let (value, internal, values) ← removeItem n.internal n.values bpos
        pure ({ n with internal, values }, some value, internal == 0 && n.external == 0)) := by
  simp only [removeAt, removeItem, bind_assoc, pure_bind]

/-- `insert_at` replaces or inserts an item of the values of its last node. -/
theorem insertAt_insertItem (v : V) {bpos : Nat} (hpos : bpos < 32)
    (hrun : heapPos addr bits hop rel = .ok bpos) :
    insertAt n addr bits hop 0 rel v = (do
      if ← testBit n.internal bpos then
        let values ← replaceItem n.internal n.values bpos v
        pure ({ n with values }, false)
      else
        let (internal, values) ← insertItem n.internal n.values bpos v
        pure ({ n with internal, values }, true)) := by
  simp only [insertAt, hrun, rank_ok n.internal hpos, testBit_ok n.internal hpos, replaceItem,
    insertItem, ok_bind, bind_assoc, pure_bind]

/-! ### The children -/

/-- `get_at` goes on in an item of the children. -/
theorem getAt_lookAt_child (k : Nat) :
    getAt n addr bits hop (k + 1) rel = (do
      match ← lookAt n.external n.children (← nibble addr bits hop) with
      | none => pure none
      | some child =>
        let hop ← checkedAdd hop 1
        getAt child addr bits hop k rel) := by
  rw [getAt]
  refine bind_congr fun nib => ?_
  rw [lookAt_bind]
  refine bind_congr fun bit => ?_
  cases bit with
  | false => rfl
  | true => rfl

/-- `contains_at` goes on in an item of the children. -/
theorem containsAt_lookAt_child (k : Nat) :
    containsAt n addr bits hop (k + 1) rel = (do
      match ← lookAt n.external n.children (← nibble addr bits hop) with
      | none => pure false
      | some child =>
        let hop ← checkedAdd hop 1
        containsAt child addr bits hop k rel) := by
  rw [containsAt]
  refine bind_congr fun nib => ?_
  rw [lookAt_bind]
  refine bind_congr fun bit => ?_
  cases bit with
  | false => rfl
  | true => rfl

variable {nib : Nat}

/-- `remove_at` replaces an item of the children, and removes it when it is to be pruned. -/
theorem removeAt_removeItem_child (k : Nat) (hnib : nib < 32)
    (hrun : nibble addr bits hop = .ok nib) :
    removeAt n addr bits hop (k + 1) rel = (do
      match ← lookAt n.external n.children nib with
      | none => pure (n, none, false)
      | some child =>
        let hop ← checkedAdd hop 1
        let (child, value, prune) ← removeAt child addr bits hop k rel
        let children ← replaceItem n.external n.children nib child
        if prune then
          let (_, external, children) ← removeItem n.external children nib
          pure ({ n with external, children }, value, n.internal == 0 && external == 0)
        else pure ({ n with children }, value, n.internal == 0 && n.external == 0)) := by
  rw [removeAt, hrun, ok_bind, lookAt_bind]
  refine bind_congr fun bit => ?_
  cases bit with
  | false => rfl
  | true =>
      simp only [rank_ok n.external hnib, replaceItem, removeItem, ok_bind, bind_assoc]
      rfl

/-- `insert_at` inserts an empty item into the children where there is none, and replaces
    it by what it has become. -/
theorem insertAt_insertItem_child (k : Nat) (v : V) (hnib : nib < 32)
    (hrun : nibble addr bits hop = .ok nib) (hlen : n.children.length = countOnes n.external) :
    insertAt n addr bits hop (k + 1) rel v = (do
      match ← lookAt n.external n.children nib with
      | none =>
        let (external, children) ← insertItem n.external n.children nib TbNode.new
        let hop ← checkedAdd hop 1
        let (child, isNew) ← insertAt TbNode.new addr bits hop k rel v
        let children ← replaceItem external children nib child
        pure ({ n with external, children }, isNew)
      | some child =>
        let hop ← checkedAdd hop 1
        let (child, isNew) ← insertAt child addr bits hop k rel v
        let children ← replaceItem n.external n.children nib child
        pure ({ n with children }, isNew)) := by
  have hle := (TbNode.fits_iff.mpr hlen).rank_le (Nat.le_of_lt hnib)
  rw [insertAt, hrun, ok_bind, lookAt_bind]
  simp only [rank_ok n.external hnib, testBit_ok n.external hnib, ok_bind]
  cases hbit : n.external.getLsbD nib with
  | false =>
      -- the bit set now is not below its own position
      have hrank : rank (n.external ||| 1#32 <<< nib) nib
          = .ok (RankVec.rank n.external.getLsbD nib) := by
        rw [rank_ok _ hnib, RankVec.getLsbD_setBit _ hnib, RankVec.rank_set hbit]
        simp
      simp only [Bool.false_eq_true, ↓reduceIte, insertItem, replaceItem,
        rank_ok n.external hnib, vecInsert_ok hle, setBit_ok n.external hnib, hrank, ok_bind,
        pure_eq_ok, vecGet_insertIdx hle]
  | true =>
      simp only [↓reduceIte, replaceItem, rank_ok n.external hnib, ok_bind, pure_eq_ok]

end Routines

/-! ## The sparse map -/

section Sparse

variable {b : U32} {xs : List α}

/-- Reading is in bounds. -/
theorem lookAt_ok (h : Fits b.getLsbD 32 xs) {q : Nat} (hq : q < 32) :
    lookAt b xs q = .ok (look b.getLsbD xs q) := by
  rw [lookAt, testBit_ok b hq, ok_bind]
  cases hbit : b.getLsbD q with
  | false =>
      rw [RankVec.look_of_clear hbit]
      rfl
  | true =>
      have hget := List.getElem?_eq_getElem (h.rank_lt hbit)
      rw [RankVec.look_of_set hbit, if_pos rfl, rank_ok b hq, ok_bind, vecGet_ok hget, ok_bind,
        hget]
      rfl

theorem insertItem_ok (h : Fits b.getLsbD 32 xs) {p : Nat} (hp : p < 32) (x : α) :
    insertItem b xs p x
      = .ok (b ||| 1#32 <<< p, xs.insertIdx (RankVec.rank b.getLsbD p) x) := by
  rw [insertItem, rank_ok b hp, ok_bind, vecInsert_ok (h.rank_le (Nat.le_of_lt hp)), ok_bind,
    setBit_ok b hp]
  rfl

theorem replaceItem_ok (h : Fits b.getLsbD 32 xs) {p : Nat} (hbit : b.getLsbD p = true) (x : α) :
    replaceItem b xs p x = .ok (xs.set (RankVec.rank b.getLsbD p) x) := by
  rw [replaceItem, rank_ok b (h.bound p hbit), ok_bind, vecSet_ok (h.rank_lt hbit)]

theorem removeItem_ok (h : Fits b.getLsbD 32 xs) {p : Nat} {y : α}
    (hy : look b.getLsbD xs p = some y) :
    removeItem b xs p
      = .ok (y, b &&& ~~~(1#32 <<< p), xs.eraseIdx (RankVec.rank b.getLsbD p)) := by
  have hbit : b.getLsbD p = true := by rw [← h.look_isSome, hy, Option.isSome_some]
  have hp := h.bound p hbit
  rw [RankVec.look_of_set hbit] at hy
  rw [removeItem, rank_ok b hp, ok_bind, vecRemove_ok hy, ok_bind, clearBit_ok b hp]
  rfl

end Sparse

/-- **The compact array is a sparse map.**  Of a bitmap and a `Vec` with an item for
    each set bit, every position of `0..=31` can be read.  Inserting at a clear
    position, replacing at a set one and removing from a set one write that
    position, leave what is read at every other one, and keep the two in step. -/
theorem compact_array_sparse_map (b : U32) (xs : List α) (hlen : xs.length = countOnes b) :
    ∃ read : Nat → Option α,
      (∀ q ≤ 31, lookAt b xs q = .ok (read q) ∧ (read q).isSome = b.getLsbD q)
      ∧ (∀ p ≤ 31, ∀ x, b.getLsbD p = false →
          ∃ b' xs', insertItem b xs p x = .ok (b', xs') ∧ xs'.length = countOnes b'
            ∧ ∀ q ≤ 31, lookAt b' xs' q = .ok (if q = p then some x else read q))
      ∧ (∀ p ≤ 31, ∀ x, b.getLsbD p = true →
          ∃ xs', replaceItem b xs p x = .ok xs' ∧ xs'.length = countOnes b
            ∧ ∀ q ≤ 31, lookAt b xs' q = .ok (if q = p then some x else read q))
      ∧ (∀ p ≤ 31, b.getLsbD p = true →
          ∃ y b' xs', removeItem b xs p = .ok (y, b', xs') ∧ read p = some y
            ∧ xs'.length = countOnes b'
            ∧ ∀ q ≤ 31, lookAt b' xs' q = .ok (if q = p then none else read q)) := by
  have h := TbNode.fits_iff.mpr hlen
  refine ⟨look b.getLsbD xs, ?_, ?_, ?_, ?_⟩
  · intro q hq
    exact ⟨lookAt_ok h (by omega), h.look_isSome q⟩
  · intro p hp x hbit
    have h' := h.insert hbit (show p < 32 by omega) x
    rw [← RankVec.getLsbD_setBit b (by omega)] at h'
    refine ⟨_, _, insertItem_ok h (by omega) x, TbNode.fits_iff.mp h', ?_⟩
    intro q hq
    rw [lookAt_ok h' (by omega), RankVec.getLsbD_setBit b (by omega),
      h.look_insert hbit (by omega)]
  · intro p hp x hbit
    have h' := h.set (RankVec.rank b.getLsbD p) x
    refine ⟨_, replaceItem_ok h hbit x, TbNode.fits_iff.mp h', ?_⟩
    intro q hq
    rw [lookAt_ok h' (by omega), h.look_set hbit]
  · intro p hp hbit
    obtain ⟨y, hy⟩ := Option.isSome_iff_exists.mp ((h.look_isSome p).trans hbit)
    have h' := h.erase hbit
    rw [← RankVec.getLsbD_clearBit b (by omega)] at h'
    refine ⟨y, _, _, removeItem_ok h hy, hy, TbNode.fits_iff.mp h', ?_⟩
    intro q hq
    rw [lookAt_ok h' (by omega), RankVec.getLsbD_clearBit b (by omega), RankVec.look_erase hbit]

/-- The bitmap of the documentation's example, with positions 1, 3 and 6 set. -/
theorem compact_array_sparse_map_example :
    ∃ read : Nat → Option Nat, lookAt 0b1001010#32 [10, 30, 60] 6 = .ok (read 6)
      ∧ (read 6).isSome = true
      ∧ ∃ b' xs', insertItem 0b1001010#32 [10, 30, 60] 4 40 = .ok (b', xs')
        ∧ ∀ q ≤ 31, lookAt b' xs' q = .ok (if q = 4 then some 40 else read q) := by
  obtain ⟨read, hread, hinsert, -, -⟩ :=
    compact_array_sparse_map 0b1001010#32 [10, 30, 60] (by decide)
  obtain ⟨b', xs', hrun, -, hlook⟩ := hinsert 4 (by decide) 40 (by decide)
  exact ⟨read, (hread 6 (by decide)).1, (hread 6 (by decide)).2.trans (by decide), b', xs', hrun,
    hlook⟩

end Routemap
