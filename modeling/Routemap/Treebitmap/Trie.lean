/-
  Routemap.Treebitmap.Trie

  The tree of nodes as a map from slots to values.  A slot is a path of nibbles
  from the root to a node, and a heap position in that node.

  * `valueAt` and `childAt` read one node, `lookup` and `nodeAt` follow a path.
  * `insertPath` and `removePath` are what `insertAt` and `removeAt` do to a
    tree, with the address already cut into nibbles (see `Exec`).
  * `Shape` is the representation invariant of a tree with a bound on its height;
    `Tight` says that no child is empty.

  `lookup` after an update is the updated map, both invariants are kept, and a
  tree with both is determined by its `lookup` (`ext_of_lookup`).
-/
import Routemap.Treebitmap.Node
import Routemap.Lib.RankVec

namespace Routemap

variable {V : Type}

open RankVec (Fits look)

namespace TbNode

/-! ## One node -/

/-- The value at heap position `q`. -/
def valueAt (n : TbNode V) (q : Nat) : Option V := look n.internal.getLsbD n.values q

/-- The child for nibble `nib`. -/
def childAt (n : TbNode V) (nib : Nat) : Option (TbNode V) :=
  look n.external.getLsbD n.children nib

def setValue (n : TbNode V) (q : Nat) (v : V) : TbNode V :=
  { n with
    internal := n.internal ||| 1#32 <<< q
    values := RankVec.put n.internal.getLsbD n.values q v }

def setChild (n : TbNode V) (nib : Nat) (c : TbNode V) : TbNode V :=
  { n with
    external := n.external ||| 1#32 <<< nib
    children := RankVec.put n.external.getLsbD n.children nib c }

def dropValue (n : TbNode V) (q : Nat) : TbNode V :=
  { n with
    internal := n.internal &&& ~~~(1#32 <<< q)
    values := n.values.eraseIdx (RankVec.rank n.internal.getLsbD q) }

def dropChild (n : TbNode V) (nib : Nat) : TbNode V :=
  { n with
    external := n.external &&& ~~~(1#32 <<< nib)
    children := n.children.eraseIdx (RankVec.rank n.external.getLsbD nib) }

/-- The prune test: no value and no child. -/
def isEmpty (n : TbNode V) : Bool := n.internal == 0 && n.external == 0

/-- The two bitmaps of a node agree with its two `Vec`s. -/
structure NodeFit (n : TbNode V) : Prop where
  values_fit : Fits n.internal.getLsbD 32 n.values
  children_fit : Fits n.external.getLsbD 32 n.children

/-- The invariant of one node: its two bitmaps agree with its two `Vec`s, bit 0
    of `internal` is unused, and a node with no level below it (`h = 0`) has no
    child and no value but the one of position 1. -/
structure NodeOk (h : Nat) (n : TbNode V) : Prop where
  values_fit : Fits n.internal.getLsbD 16 n.values
  children_fit : Fits n.external.getLsbD 16 n.children
  internal_zero : n.internal.getLsbD 0 = false
  bottom : h = 0 → n.external = 0#32 ∧ ∀ q, n.internal.getLsbD q = true → q = 1

theorem valueAt_new (q : Nat) : (TbNode.new : TbNode V).valueAt q = none := by
  simp [valueAt, look, TbNode.new]

theorem childAt_new (nib : Nat) : (TbNode.new : TbNode V).childAt nib = none := by
  simp [childAt, look, TbNode.new]

theorem nodeOk_new (h : Nat) : NodeOk h (TbNode.new : TbNode V) where
  values_fit := by
    rw [show (TbNode.new : TbNode V).internal.getLsbD = fun _ => false by
      funext i; simp [TbNode.new]]
    exact Fits.empty 16
  children_fit := by
    rw [show (TbNode.new : TbNode V).external.getLsbD = fun _ => false by
      funext i; simp [TbNode.new]]
    exact Fits.empty 16
  internal_zero := by simp [TbNode.new]
  bottom _ := ⟨rfl, by simp [TbNode.new]⟩

/-- A bitmap and a `Vec` agree when there is an item for each set bit. -/
theorem fits_iff {α : Type} {b : U32} {xs : List α} :
    Fits b.getLsbD 32 xs ↔ xs.length = countOnes b := by
  rw [countOnes, RankVec.toNat_cpop]
  refine ⟨fun h => h.length_eq, fun h => ⟨?_, h⟩⟩
  intro q hq
  exact BitVec.lt_of_getLsbD hq

section NodeOk

variable {h : Nat} {n : TbNode V}

theorem NodeOk.fit (ok : NodeOk h n) : NodeFit n where
  values_fit := ok.values_fit.mono (by decide)
  children_fit := ok.children_fit.mono (by decide)

theorem NodeFit.length_values (fit : NodeFit n) : n.values.length = countOnes n.internal :=
  fits_iff.mp fit.values_fit

theorem NodeFit.length_children (fit : NodeFit n) : n.children.length = countOnes n.external :=
  fits_iff.mp fit.children_fit

theorem NodeFit.valueAt_isSome (fit : NodeFit n) (q : Nat) :
    (n.valueAt q).isSome = n.internal.getLsbD q := fit.values_fit.look_isSome q

theorem NodeFit.childAt_isSome (fit : NodeFit n) (nib : Nat) :
    (n.childAt nib).isSome = n.external.getLsbD nib := fit.children_fit.look_isSome nib

/-- The bit of a value that is there. -/
theorem internal_bit {q : Nat} {v : V} (hv : n.valueAt q = some v) :
    n.internal.getLsbD q = true := (RankVec.look_eq_some.mp hv).1

/-- The bit of a child that is there. -/
theorem external_bit {nib : Nat} {c : TbNode V} (hc : n.childAt nib = some c) :
    n.external.getLsbD nib = true := (RankVec.look_eq_some.mp hc).1

/-- The bit of a value that is not there. -/
theorem NodeFit.internal_clear (fit : NodeFit n) {q : Nat} (hv : n.valueAt q = none) :
    n.internal.getLsbD q = false := (fit.values_fit.look_eq_none q).mp hv

/-- The bit of a child that is not there. -/
theorem NodeFit.external_clear (fit : NodeFit n) {nib : Nat} (hc : n.childAt nib = none) :
    n.external.getLsbD nib = false := (fit.children_fit.look_eq_none nib).mp hc

/-- The positions of values are `1..=15`, and only 1 at the bottom. -/
theorem NodeOk.valueAt_pos (ok : NodeOk h n) {q : Nat} {v : V} (hv : n.valueAt q = some v) :
    1 ≤ q ∧ q < 16 ∧ (h = 0 → q = 1) := by
  have hbit := internal_bit hv
  refine ⟨?_, ok.values_fit.bound q hbit, fun h0 => (ok.bottom h0).2 q hbit⟩
  -- position 0 is not a heap position
  by_contra hq
  rw [show q = 0 by omega, ok.internal_zero] at hbit
  cases hbit

theorem NodeOk.childAt_lt (ok : NodeOk h n) {nib : Nat} {c : TbNode V}
    (hc : n.childAt nib = some c) : nib < 16 ∧ 0 < h := by
  have hbit := external_bit hc
  refine ⟨ok.children_fit.bound nib hbit, ?_⟩
  by_contra h0
  rw [(ok.bottom (by omega)).1, BitVec.getLsbD_zero] at hbit
  cases hbit

theorem NodeOk.exists_childAt (ok : NodeOk h n) {c : TbNode V} (hc : c ∈ n.children) :
    ∃ nib, n.childAt nib = some c := by
  obtain ⟨nib, -, hnib⟩ := ok.children_fit.exists_look hc
  exact ⟨nib, hnib⟩

theorem mem_of_childAt {nib : Nat} {c : TbNode V} (hc : n.childAt nib = some c) :
    c ∈ n.children := Fits.mem_of_look hc

/-! ### Writing a value -/

/-- Where a value stands, writing one replaces it and leaves the bitmap. -/
theorem setValue_of_some {q : Nat} {w : V} (hw : n.valueAt q = some w) (v : V) :
    n.setValue q v
      = { n with values := n.values.set (RankVec.rank n.internal.getLsbD q) v } := by
  have hbit := internal_bit hw
  rw [setValue, RankVec.or_setBit hbit, RankVec.put, if_pos hbit]

/-- Where no value stands, writing one inserts it at its rank and sets its bit. -/
theorem NodeFit.setValue_of_none (fit : NodeFit n) {q : Nat} (hv : n.valueAt q = none) (v : V) :
    n.setValue q v
      = { n with
          internal := n.internal ||| 1#32 <<< q
          values := n.values.insertIdx (RankVec.rank n.internal.getLsbD q) v } := by
  rw [setValue, RankVec.put, fit.internal_clear hv]
  rfl

theorem NodeFit.valueAt_setValue (fit : NodeFit n) {q : Nat} (hq : q < 32) (v : V) (r : Nat) :
    (n.setValue q v).valueAt r = if r = q then some v else n.valueAt r := by
  rw [valueAt, setValue, RankVec.getLsbD_setBit _ hq]
  exact fit.values_fit.look_put hq v r

theorem childAt_setValue (n : TbNode V) (q : Nat) (v : V) (nib : Nat) :
    (n.setValue q v).childAt nib = n.childAt nib := rfl

theorem NodeOk.setValue (ok : NodeOk h n) {q : Nat} (hq : 1 ≤ q) (hq' : q < 16)
    (hbot : h = 0 → q = 1) (v : V) : NodeOk h (n.setValue q v) where
  values_fit := by
    rw [TbNode.setValue, RankVec.getLsbD_setBit _ (by omega)]
    exact ok.values_fit.put hq' v
  children_fit := ok.children_fit
  internal_zero := by
    rw [TbNode.setValue, RankVec.getLsbD_setBit _ (by omega), Function.update_of_ne (by omega)]
    exact ok.internal_zero
  bottom h0 := by
    refine ⟨(ok.bottom h0).1, ?_⟩
    intro r hr
    rw [TbNode.setValue, RankVec.getLsbD_setBit _ (by omega)] at hr
    -- the bit was there before, or it is the one set now
    by_cases hrq : r = q
    · rw [hrq, hbot h0]
    · rw [Function.update_of_ne hrq] at hr
      exact (ok.bottom h0).2 r hr

/-! ### Writing a child -/

/-- Where a child stands, writing one replaces it and leaves the bitmap. -/
theorem setChild_of_some {nib : Nat} {c : TbNode V} (hc : n.childAt nib = some c)
    (c' : TbNode V) :
    n.setChild nib c'
      = { n with children := n.children.set (RankVec.rank n.external.getLsbD nib) c' } := by
  have hbit := external_bit hc
  rw [setChild, RankVec.or_setBit hbit, RankVec.put, if_pos hbit]

/-- Where no child stands, writing one inserts it at its rank and sets its bit. -/
theorem NodeFit.setChild_of_none (fit : NodeFit n) {nib : Nat} (hc : n.childAt nib = none)
    (c' : TbNode V) :
    n.setChild nib c'
      = { n with
          external := n.external ||| 1#32 <<< nib
          children := n.children.insertIdx (RankVec.rank n.external.getLsbD nib) c' } := by
  rw [setChild, RankVec.put, fit.external_clear hc]
  rfl

theorem NodeFit.childAt_setChild (fit : NodeFit n) {nib : Nat} (hnib : nib < 32) (c : TbNode V)
    (r : Nat) : (n.setChild nib c).childAt r = if r = nib then some c else n.childAt r := by
  rw [childAt, setChild, RankVec.getLsbD_setBit _ hnib]
  exact fit.children_fit.look_put hnib c r

theorem valueAt_setChild (n : TbNode V) (nib : Nat) (c : TbNode V) (q : Nat) :
    (n.setChild nib c).valueAt q = n.valueAt q := rfl

theorem NodeOk.setChild (ok : NodeOk (h + 1) n) {nib : Nat} (hnib : nib < 16) (c : TbNode V) :
    NodeOk (h + 1) (n.setChild nib c) where
  values_fit := ok.values_fit
  children_fit := by
    rw [TbNode.setChild, RankVec.getLsbD_setBit _ (by omega)]
    exact ok.children_fit.put hnib c
  internal_zero := ok.internal_zero
  bottom h0 := by omega

/-! ### Dropping a value -/

theorem valueAt_dropValue {q : Nat} (hq : q < 32) (hbit : n.internal.getLsbD q = true) (r : Nat) :
    (n.dropValue q).valueAt r = if r = q then none else n.valueAt r := by
  rw [valueAt, dropValue, RankVec.getLsbD_clearBit _ hq]
  exact RankVec.look_erase hbit r

theorem childAt_dropValue (n : TbNode V) (q nib : Nat) :
    (n.dropValue q).childAt nib = n.childAt nib := rfl

theorem NodeOk.dropValue (ok : NodeOk h n) {q : Nat} (hbit : n.internal.getLsbD q = true) :
    NodeOk h (n.dropValue q) where
  values_fit := by
    have hq := ok.values_fit.bound q hbit
    rw [TbNode.dropValue, RankVec.getLsbD_clearBit _ (by omega)]
    exact ok.values_fit.erase hbit
  children_fit := ok.children_fit
  internal_zero := by
    rw [TbNode.dropValue, BitVec.getLsbD_and, ok.internal_zero, Bool.false_and]
  bottom h0 := by
    refine ⟨(ok.bottom h0).1, ?_⟩
    intro r hr
    rw [TbNode.dropValue, BitVec.getLsbD_and, Bool.and_eq_true] at hr
    exact (ok.bottom h0).2 r hr.1

/-! ### Dropping a child -/

theorem childAt_dropChild {nib : Nat} (hnib : nib < 32) (hbit : n.external.getLsbD nib = true)
    (r : Nat) : (n.dropChild nib).childAt r = if r = nib then none else n.childAt r := by
  rw [childAt, dropChild, RankVec.getLsbD_clearBit _ hnib]
  exact RankVec.look_erase hbit r

theorem valueAt_dropChild (n : TbNode V) (nib q : Nat) :
    (n.dropChild nib).valueAt q = n.valueAt q := rfl

theorem NodeOk.dropChild (ok : NodeOk (h + 1) n) {nib : Nat}
    (hbit : n.external.getLsbD nib = true) : NodeOk (h + 1) (n.dropChild nib) where
  values_fit := ok.values_fit
  children_fit := by
    have hnib := ok.children_fit.bound nib hbit
    rw [TbNode.dropChild, RankVec.getLsbD_clearBit _ (by omega)]
    exact ok.children_fit.erase hbit
  internal_zero := ok.internal_zero
  bottom h0 := by omega

/-- Two nodes with the same values and the same children are the same. -/
theorem NodeOk.ext {h' : Nat} {m : TbNode V} (ok : NodeOk h n) (ok' : NodeOk h' m)
    (hval : ∀ q, n.valueAt q = m.valueAt q) (hchild : ∀ nib, n.childAt nib = m.childAt nib) :
    n = m := by
  obtain ⟨hint, hvalues⟩ := ok.values_fit.ext ok'.values_fit hval
  obtain ⟨hext, hchildren⟩ := ok.children_fit.ext ok'.children_fit hchild
  have hint' : n.internal = m.internal :=
    BitVec.eq_of_getLsbD_eq fun i _ => congrFun hint i
  have hext' : n.external = m.external :=
    BitVec.eq_of_getLsbD_eq fun i _ => congrFun hext i
  cases n
  cases m
  simp_all

/-- A node that is not empty has a value or a child. -/
theorem NodeOk.exists_of_not_isEmpty (ok : NodeOk h n) (hne : n.isEmpty = false) :
    (∃ q v, n.valueAt q = some v) ∨ ∃ nib c, n.childAt nib = some c := by
  -- a word that is not zero has a set bit
  have hbit : ∀ b : U32, b ≠ 0#32 → ∃ i, b.getLsbD i = true := by
    intro b hb
    by_contra hall
    simp only [not_exists, Bool.not_eq_true] at hall
    exact hb (BitVec.eq_of_getLsbD_eq fun i _ => by rw [hall i, BitVec.getLsbD_zero])
  by_cases hint : n.internal = 0#32
  · have hext : n.external ≠ 0#32 := by
      intro hext
      rw [isEmpty, hint, hext] at hne
      cases hne
    obtain ⟨nib, hnib⟩ := hbit _ hext
    rw [← ok.fit.childAt_isSome, Option.isSome_iff_exists] at hnib
    exact Or.inr ⟨nib, hnib⟩
  · obtain ⟨q, hq⟩ := hbit _ hint
    rw [← ok.fit.valueAt_isSome, Option.isSome_iff_exists] at hq
    exact Or.inl ⟨q, hq⟩

theorem not_isEmpty_of_valueAt {q : Nat} {v : V} (hv : n.valueAt q = some v) :
    n.isEmpty = false := by
  have hbit := internal_bit hv
  have hne : n.internal ≠ 0#32 := by
    intro h0
    rw [h0, BitVec.getLsbD_zero] at hbit
    cases hbit
  simp [isEmpty, hne]

theorem not_isEmpty_of_childAt {nib : Nat} {c : TbNode V} (hc : n.childAt nib = some c) :
    n.isEmpty = false := by
  have hbit := external_bit hc
  have hne : n.external ≠ 0#32 := by
    intro h0
    rw [h0, BitVec.getLsbD_zero] at hbit
    cases hbit
  simp [isEmpty, hne]

end NodeOk

/-! ## Paths -/

/-- The node at the end of a path. -/
def nodeAt : TbNode V → List Nat → Option (TbNode V)
  | n, [] => some n
  | n, nib :: path => (n.childAt nib).bind fun c => c.nodeAt path

/-- The value in slot `(path, q)`. -/
def lookup : TbNode V → List Nat → Nat → Option V
  | n, [], q => n.valueAt q
  | n, nib :: path, q => (n.childAt nib).bind fun c => c.lookup path q

/-- The tree with `v` written to slot `(path, q)`. -/
def insertPath : TbNode V → List Nat → Nat → V → TbNode V
  | n, [], q, v => n.setValue q v
  | n, nib :: path, q, v => n.setChild nib (((n.childAt nib).getD new).insertPath path q v)

/-- The tree with slot `(path, q)` cleared and every node on the path that
    became empty pruned.  A slot that is not set leaves the tree alone. -/
def removePath : TbNode V → List Nat → Nat → TbNode V
  | n, [], q => if n.internal.getLsbD q then n.dropValue q else n
  | n, nib :: path, q =>
    match n.childAt nib with
    | none => n
    | some c =>
      if (c.lookup path q).isNone then n
      else if (c.removePath path q).isEmpty then n.dropChild nib
      else n.setChild nib (c.removePath path q)

theorem lookup_eq_nodeAt (n : TbNode V) (path : List Nat) (q : Nat) :
    n.lookup path q = (n.nodeAt path).bind fun m => m.valueAt q := by
  induction path generalizing n with
  | nil => rfl
  | cons nib path ih =>
      rw [lookup, nodeAt]
      cases n.childAt nib with
      | none => rfl
      | some c => exact ih c

theorem nodeAt_append (n : TbNode V) (path rest : List Nat) :
    n.nodeAt (path ++ rest) = (n.nodeAt path).bind fun m => m.nodeAt rest := by
  induction path generalizing n with
  | nil => rfl
  | cons nib path ih =>
      rw [List.cons_append, nodeAt, nodeAt]
      cases n.childAt nib with
      | none => rfl
      | some c => exact ih c

/-! ## Invariants -/

/-- In every node of the tree there is an item for each set bit. -/
inductive Packed : TbNode V → Prop
  | node {n : TbNode V} (values : n.values.length = countOnes n.internal)
      (children : n.children.length = countOnes n.external)
      (below : ∀ c ∈ n.children, Packed c) : Packed n

/-- The representation invariant of a tree with at most `h` levels below its root. -/
def Shape : Nat → TbNode V → Prop
  | 0, n => NodeOk 0 n
  | h + 1, n => NodeOk (h + 1) n ∧ ∀ c ∈ n.children, Shape h c

/-- No node below the root is empty. -/
def Tight : Nat → TbNode V → Prop
  | 0, _ => True
  | h + 1, n => ∀ c ∈ n.children, c.isEmpty = false ∧ Tight h c

/-- A slot of a tree with `h` levels below its root: nibbles for a path, a heap
    position, and on the lowest level only position 1. -/
structure Slot (h : Nat) (path : List Nat) (q : Nat) : Prop where
  length_le : path.length ≤ h
  nibble_lt : ∀ nib ∈ path, nib < 16
  pos : 1 ≤ q
  lt : q < 16
  bottom : path.length = h → q = 1

theorem Slot.tail {h nib q : Nat} {path : List Nat} (s : Slot (h + 1) (nib :: path) q) :
    Slot h path q where
  length_le := by simpa using s.length_le
  nibble_lt m hm := s.nibble_lt m (List.mem_cons_of_mem _ hm)
  pos := s.pos
  lt := s.lt
  bottom hlen := s.bottom (by simp [hlen])

/-- The nibbles and the position of a slot are bits of a word. -/
theorem Slot.nibble_lt_word {h q : Nat} {path : List Nat} (s : Slot h path q) :
    ∀ nib ∈ path, nib < 32 := fun nib hnib => Nat.lt_trans (s.nibble_lt nib hnib) (by decide)

theorem Slot.lt_word {h q : Nat} {path : List Nat} (s : Slot h path q) : q < 32 :=
  Nat.lt_trans s.lt (by decide)

theorem Slot.head_lt {h nib q : Nat} {path : List Nat} (s : Slot h (nib :: path) q) : nib < 16 :=
  s.nibble_lt nib (List.mem_cons_self ..)

section Tree

variable {h : Nat} {n : TbNode V}

theorem Packed.fit (hp : Packed n) : NodeFit n := by
  cases hp with
  | node values children below => exact ⟨fits_iff.mpr values, fits_iff.mpr children⟩

theorem Packed.child (hp : Packed n) {nib : Nat} {c : TbNode V} (hc : n.childAt nib = some c) :
    Packed c := by
  cases hp with
  | node values children below => exact below c (mem_of_childAt hc)

theorem packed_new : Packed (new : TbNode V) :=
  .node (nodeOk_new 0).fit.length_values (nodeOk_new 0).fit.length_children
    fun _ hc => absurd hc List.not_mem_nil

theorem Shape.nodeOk (hs : Shape h n) : NodeOk h n := by
  cases h with
  | zero => exact hs
  | succ h => exact hs.1

theorem Shape.child (hs : Shape (h + 1) n) {nib : Nat} {c : TbNode V}
    (hc : n.childAt nib = some c) : Shape h c := hs.2 c (mem_of_childAt hc)

theorem Tight.child (ht : Tight (h + 1) n) {nib : Nat} {c : TbNode V}
    (hc : n.childAt nib = some c) : c.isEmpty = false ∧ Tight h c := ht c (mem_of_childAt hc)

theorem Shape.packed (hs : Shape h n) : Packed n := by
  induction h generalizing n with
  | zero =>
      -- a node at the bottom has no children
      refine .node hs.nodeOk.fit.length_values hs.nodeOk.fit.length_children ?_
      intro c hc
      obtain ⟨nib, hnib⟩ := hs.nodeOk.exists_childAt hc
      exact absurd (hs.nodeOk.childAt_lt hnib).2 (Nat.lt_irrefl 0)
  | succ h ih =>
      exact .node hs.nodeOk.fit.length_values hs.nodeOk.fit.length_children
        fun c hc => ih (hs.2 c hc)

theorem shape_new (h : Nat) : Shape h (new : TbNode V) := by
  cases h with
  | zero => exact nodeOk_new 0
  | succ h => exact ⟨nodeOk_new _, fun c hc => absurd hc (List.not_mem_nil)⟩

theorem tight_new (h : Nat) : Tight h (new : TbNode V) := by
  cases h with
  | zero => trivial
  | succ h => exact fun c hc => absurd hc (List.not_mem_nil)

theorem lookup_new (path : List Nat) (q : Nat) : (new : TbNode V).lookup path q = none := by
  cases path with
  | nil => exact valueAt_new q
  | cons nib path => rw [lookup, childAt_new, Option.bind_none]

/-- Only slots are looked up with success. -/
theorem Shape.slot_of_lookup {path : List Nat} {q : Nat} {v : V} (hs : Shape h n)
    (hv : n.lookup path q = some v) : Slot h path q := by
  induction path generalizing h n with
  | nil =>
      obtain ⟨hpos, hlt, hbot⟩ := hs.nodeOk.valueAt_pos hv
      exact ⟨by simp, by simp, hpos, hlt, fun h0 => hbot (by simpa using h0.symm)⟩
  | cons nib path ih =>
      rw [lookup] at hv
      obtain ⟨c, hc, hv⟩ := Option.bind_eq_some_iff.mp hv
      obtain ⟨hnib, hpos⟩ := hs.nodeOk.childAt_lt hc
      cases h with
      | zero => omega  -- a node at the bottom has no child
      | succ h =>
          have s := ih (hs.child hc) hv
          refine ⟨?_, ?_, s.pos, s.lt, ?_⟩
          · simpa using s.length_le
          · intro m hm
            rcases List.mem_cons.mp hm with rfl | hm
            · exact hnib
            · exact s.nibble_lt m hm
          · intro hlen
            exact s.bottom (by simpa using hlen)

/-! ### Writing -/

/-- A child of a node with one child replaced is the new one or an old one. -/
theorem Shape.setChild (hs : Shape (h + 1) n) {nib : Nat} (hnib : nib < 16) {c : TbNode V}
    (hc : Shape h c) : Shape (h + 1) (n.setChild nib c) := by
  have ok := hs.nodeOk.setChild hnib c
  refine ⟨ok, ?_⟩
  intro d hd
  obtain ⟨r, hr⟩ := ok.exists_childAt hd
  rw [hs.nodeOk.fit.childAt_setChild (show _ < 32 by omega)] at hr
  split at hr
  · cases hr
    exact hc
  · exact hs.child hr

theorem Tight.setChild (hs : Shape (h + 1) n) (ht : Tight (h + 1) n) {nib : Nat} (hnib : nib < 16)
    {c : TbNode V} (hne : c.isEmpty = false) (hc : Tight h c) :
    Tight (h + 1) (n.setChild nib c) := by
  intro d hd
  obtain ⟨r, hr⟩ := (hs.nodeOk.setChild hnib c).exists_childAt hd
  rw [hs.nodeOk.fit.childAt_setChild (show _ < 32 by omega)] at hr
  split at hr
  · cases hr
    exact ⟨hne, hc⟩
  · exact ht.child hr

theorem Packed.getD_child (hp : Packed n) (nib : Nat) : Packed ((n.childAt nib).getD new) := by
  cases hc : n.childAt nib with
  | none => exact packed_new
  | some c => exact hp.child hc

theorem Shape.getD_child (hs : Shape (h + 1) n) (nib : Nat) :
    Shape h ((n.childAt nib).getD new) := by
  cases hc : n.childAt nib with
  | none => exact shape_new h
  | some c => exact hs.child hc

theorem Shape.insertPath {path : List Nat} {q : Nat} (hs : Shape h n) (s : Slot h path q) (v : V) :
    Shape h (n.insertPath path q v) := by
  induction path generalizing h n with
  | nil =>
      have ok := hs.nodeOk.setValue s.pos s.lt (fun h0 => s.bottom (by simp [h0])) v
      cases h with
      | zero => exact ok
      | succ h => exact ⟨ok, hs.2⟩
  | cons nib path ih =>
      cases h with
      | zero => exact absurd s.length_le (by simp)  -- a slot's path ends above the bottom
      | succ h => exact hs.setChild s.head_lt (ih (hs.getD_child nib) s.tail)

/-- An insertion leaves a node that is not empty. -/
theorem Shape.insertPath_not_isEmpty {path : List Nat} {q : Nat} (hs : Shape h n)
    (s : Slot h path q) (v : V) : (n.insertPath path q v).isEmpty = false := by
  have ok := (hs.insertPath s v).nodeOk
  cases path with
  | nil =>
      have hvalue := hs.nodeOk.fit.valueAt_setValue (Nat.lt_trans s.lt (by decide)) v q
      rw [if_pos rfl] at hvalue
      exact not_isEmpty_of_valueAt hvalue
  | cons nib path =>
      have hchild := hs.nodeOk.fit.childAt_setChild (Nat.lt_trans s.head_lt (by decide))
        (((n.childAt nib).getD new).insertPath path q v) nib
      rw [if_pos rfl] at hchild
      exact not_isEmpty_of_childAt hchild

theorem Tight.insertPath {path : List Nat} {q : Nat} (hs : Shape h n) (ht : Tight h n)
    (s : Slot h path q) (v : V) : Tight h (n.insertPath path q v) := by
  induction path generalizing h n with
  | nil =>
      cases h with
      | zero => trivial
      | succ h => exact ht
  | cons nib path ih =>
      cases h with
      | zero => exact absurd s.length_le (by simp)
      | succ h =>
          -- the write goes on in the child that is there, or in a new node
          have hcs := hs.getD_child nib
          have hct : Tight h ((n.childAt nib).getD new) := by
            cases hc : n.childAt nib with
            | none => exact tight_new h
            | some c => exact (ht.child hc).2
          exact ht.setChild hs s.head_lt (hcs.insertPath_not_isEmpty s.tail v) (ih hcs hct s.tail)

/-- A write to one position of this node. -/
theorem lookup_of_value {n n' : TbNode V} {q : Nat} {w : Option V}
    (hvalue : ∀ r, n'.valueAt r = if r = q then w else n.valueAt r)
    (hchild : ∀ r, n'.childAt r = n.childAt r) (path' : List Nat) (q' : Nat) :
    n'.lookup path' q' = if path' = [] ∧ q' = q then w else n.lookup path' q' := by
  cases path' with
  | nil =>
      rw [lookup, hvalue]
      simp [lookup]
  | cons nib' path' => rw [if_neg (by simp), lookup, lookup, hchild]

/-- A write to one slot below one child of this node. -/
theorem lookup_of_child {n n' : TbNode V} {nib q : Nat} {path : List Nat} {w : Option V}
    (hvalue : ∀ r, n'.valueAt r = n.valueAt r)
    (hother : ∀ r, r ≠ nib → n'.childAt r = n.childAt r)
    (hbelow : ∀ path' q', n'.lookup (nib :: path') q'
      = if path' = path ∧ q' = q then w else n.lookup (nib :: path') q')
    (path' : List Nat) (q' : Nat) :
    n'.lookup path' q' = if path' = nib :: path ∧ q' = q then w else n.lookup path' q' := by
  cases path' with
  | nil => rw [if_neg (by simp), lookup, lookup, hvalue]
  | cons nib' path' =>
      by_cases hnib : nib' = nib
      · subst hnib
        rw [hbelow]
        simp
      · rw [if_neg (by simp [hnib]), lookup, lookup, hother nib' hnib]

/-- **Insertion writes one slot** and leaves every other one as it was. -/
theorem Packed.lookup_insertPath {path : List Nat} {q : Nat} (hp : Packed n)
    (hpath : ∀ nib ∈ path, nib < 32) (hq : q < 32) (v : V) (path' : List Nat) (q' : Nat) :
    (n.insertPath path q v).lookup path' q'
      = if path' = path ∧ q' = q then some v else n.lookup path' q' := by
  induction path generalizing n path' q' with
  | nil => exact lookup_of_value (hp.fit.valueAt_setValue hq v) (childAt_setValue n q v) path' q'
  | cons nib path ih =>
      have hchild := hp.fit.childAt_setChild (hpath nib (by simp))
        (((n.childAt nib).getD new).insertPath path q v)
      rw [TbNode.insertPath]
      refine lookup_of_child (valueAt_setChild n nib _) ?_ ?_ path' q'
      · intro r hr
        rw [hchild, if_neg hr]
      · intro path' q'
        rw [lookup, hchild, if_pos rfl, Option.bind_some,
          ih (hp.getD_child nib) fun m hm => hpath m (List.mem_cons_of_mem _ hm)]
        -- what a missing child held is what a new node holds
        congr 1
        rw [lookup]
        cases n.childAt nib with
        | none => exact lookup_new path' q'
        | some c => rfl

/-! ### Removing -/

theorem Shape.dropChild (hs : Shape (h + 1) n) {nib : Nat} {c : TbNode V}
    (hc : n.childAt nib = some c) : Shape (h + 1) (n.dropChild nib) := by
  have hbit := external_bit hc
  exact ⟨hs.nodeOk.dropChild hbit, fun d hd => hs.2 d (List.mem_of_mem_eraseIdx hd)⟩

/-- Clearing a slot that is not set changes nothing. -/
theorem Packed.removePath_of_none {path : List Nat} {q : Nat} (hp : Packed n)
    (hv : n.lookup path q = none) : n.removePath path q = n := by
  cases path with
  | nil =>
      rw [TbNode.removePath, hp.fit.internal_clear hv]
      rfl
  | cons nib path =>
      rw [TbNode.removePath]
      cases hc : n.childAt nib with
      | none => rfl
      | some c =>
          rw [lookup, hc, Option.bind_some] at hv
          simp [hv]

theorem Shape.removePath (hs : Shape h n) (path : List Nat) (q : Nat) :
    Shape h (n.removePath path q) := by
  induction path generalizing h n with
  | nil =>
      rw [TbNode.removePath]
      split
      case isTrue hbit =>
        cases h with
        | zero => exact hs.nodeOk.dropValue hbit
        | succ h => exact ⟨hs.nodeOk.dropValue hbit, hs.2⟩
      case isFalse => exact hs
  | cons nib path ih =>
      rw [TbNode.removePath]
      split
      case h_1 => exact hs
      case h_2 c hc =>
        obtain ⟨hnib, hpos⟩ := hs.nodeOk.childAt_lt hc
        cases h with
        | zero => omega
        | succ h =>
            split
            · exact hs
            · split
              · exact hs.dropChild hc
              · exact hs.setChild hnib (ih (hs.child hc))

theorem Tight.removePath (hs : Shape h n) (ht : Tight h n) (path : List Nat) (q : Nat) :
    Tight h (n.removePath path q) := by
  induction path generalizing h n with
  | nil =>
      rw [TbNode.removePath]
      split
      · cases h with
        | zero => trivial
        | succ h => exact ht
      · exact ht
  | cons nib path ih =>
      rw [TbNode.removePath]
      split
      case h_1 => exact ht
      case h_2 c hc =>
        obtain ⟨hnib, hpos⟩ := hs.nodeOk.childAt_lt hc
        cases h with
        | zero => omega
        | succ h =>
            split
            · exact ht
            · split
              · exact fun d hd => ht d (List.mem_of_mem_eraseIdx hd)
              · case isFalse hne =>
                exact ht.setChild hs hnib (by simpa using hne) (ih (hs.child hc) (ht.child hc).2)

/-- A node with no value and no child has nothing in any slot. -/
theorem lookup_of_isEmpty (he : n.isEmpty = true) (path : List Nat) (q : Nat) :
    n.lookup path q = none := by
  cases path with
  | nil =>
      rw [lookup]
      by_contra hne
      obtain ⟨v, hv⟩ := Option.ne_none_iff_exists'.mp hne
      rw [not_isEmpty_of_valueAt hv] at he
      cases he
  | cons nib path =>
      rw [lookup]
      cases hc : n.childAt nib with
      | none => rfl
      | some c =>
          rw [not_isEmpty_of_childAt hc] at he
          cases he

/-- Removal of a slot that is set. -/
theorem Packed.lookup_removePath_of_some {path : List Nat} {q : Nat} {v : V} (hp : Packed n)
    (hv : n.lookup path q = some v) (path' : List Nat) (q' : Nat) :
    (n.removePath path q).lookup path' q'
      = if path' = path ∧ q' = q then none else n.lookup path' q' := by
  induction path generalizing n path' q' with
  | nil =>
      have hbit := internal_bit hv
      rw [TbNode.removePath, if_pos hbit]
      exact lookup_of_value (valueAt_dropValue (hp.fit.values_fit.bound q hbit) hbit)
        (childAt_dropValue n q) path' q'
  | cons nib path ih =>
      rw [lookup] at hv
      obtain ⟨c, hc, hv⟩ := Option.bind_eq_some_iff.mp hv
      have hbit := external_bit hc
      have hnib := hp.fit.children_fit.bound nib hbit
      have hbelow := ih (hp.child hc) hv
      rw [TbNode.removePath, hc]
      dsimp only
      rw [if_neg (by simp [hv])]
      split
      case isTrue hempty =>
        -- the child is empty after the removal, so it held nothing else
        refine lookup_of_child (valueAt_dropChild n nib) ?_ ?_ path' q'
        · intro r hr
          rw [childAt_dropChild hnib hbit, if_neg hr]
        · intro path' q'
          rw [lookup, childAt_dropChild hnib hbit, if_pos rfl, Option.bind_none, lookup, hc,
            Option.bind_some, ← hbelow, lookup_of_isEmpty hempty]
      case isFalse =>
        -- the child keeps other entries and is written back
        refine lookup_of_child (valueAt_setChild n nib _) ?_ ?_ path' q'
        · intro r hr
          rw [hp.fit.childAt_setChild hnib, if_neg hr]
        · intro path' q'
          rw [lookup, hp.fit.childAt_setChild hnib, if_pos rfl, Option.bind_some, hbelow, lookup,
            hc, Option.bind_some]

/-- **Removal clears one slot** and leaves every other one as it was. -/
theorem Packed.lookup_removePath (hp : Packed n) (path : List Nat) (q : Nat)
    (path' : List Nat) (q' : Nat) :
    (n.removePath path q).lookup path' q'
      = if path' = path ∧ q' = q then none else n.lookup path' q' := by
  cases hv : n.lookup path q with
  | some v => exact hp.lookup_removePath_of_some hv path' q'
  | none =>
      rw [hp.removePath_of_none hv]
      split
      case isTrue heq => rw [heq.1, heq.2, hv]
      case isFalse => rfl

/-! ### Canonicity -/

/-- Below every node of a tight tree that is not empty there is a value. -/
theorem Shape.exists_lookup (hs : Shape h n) (ht : Tight h n) (hne : n.isEmpty = false) :
    ∃ path q v, n.lookup path q = some v := by
  induction h generalizing n with
  | zero =>
      rcases hs.nodeOk.exists_of_not_isEmpty hne with ⟨q, v, hv⟩ | ⟨nib, c, hc⟩
      · exact ⟨[], q, v, hv⟩
      · exact absurd (hs.nodeOk.childAt_lt hc).2 (by omega)
  | succ h ih =>
      rcases hs.nodeOk.exists_of_not_isEmpty hne with ⟨q, v, hv⟩ | ⟨nib, c, hc⟩
      · exact ⟨[], q, v, hv⟩
      · -- a child is not empty itself, so the value is below it
        obtain ⟨path, q, v, hv⟩ := ih (hs.child hc) (ht.child hc).2 (ht.child hc).1
        exact ⟨nib :: path, q, v, by rw [lookup, hc, Option.bind_some, hv]⟩

/-- **Canonicity**: two tight trees with the same values in the same slots are
    the same tree. -/
theorem Shape.ext_of_lookup {m : TbNode V} (hs : Shape h n) (ht : Tight h n) (hs' : Shape h m)
    (ht' : Tight h m) (hlook : ∀ path q, n.lookup path q = m.lookup path q) : n = m := by
  induction h generalizing n m with
  | zero =>
      -- at the bottom there are no children to compare
      refine hs.nodeOk.ext hs'.nodeOk (hlook []) ?_
      intro nib
      rw [childAt, childAt, (hs.nodeOk.bottom rfl).1, (hs'.nodeOk.bottom rfl).1]
      rw [RankVec.look_of_clear BitVec.getLsbD_zero, RankVec.look_of_clear BitVec.getLsbD_zero]
  | succ h ih =>
      -- a child of one tree holds a value, so the other tree has that child too
      have hstep : ∀ {a b : TbNode V}, Shape (h + 1) a → Tight (h + 1) a → Shape (h + 1) b →
          Tight (h + 1) b → (∀ path q, a.lookup path q = b.lookup path q) →
          ∀ nib c, a.childAt nib = some c → b.childAt nib = some c := by
        intro a b ha hta hb htb hab nib c hc
        obtain ⟨path, q, v, hv⟩ := (ha.child hc).exists_lookup (hta.child hc).2 (hta.child hc).1
        have hbv := hab (nib :: path) q
        rw [lookup, hc, Option.bind_some, hv] at hbv
        obtain ⟨d, hd, -⟩ := Option.bind_eq_some_iff.mp hbv.symm
        have hcd : c = d := by
          refine ih (ha.child hc) (hta.child hc).2 (hb.child hd) (htb.child hd).2 ?_
          intro path q
          have h := hab (nib :: path) q
          rwa [lookup, lookup, hc, hd, Option.bind_some, Option.bind_some] at h
        rw [hd, hcd]
      refine hs.nodeOk.ext hs'.nodeOk (hlook []) ?_
      intro nib
      apply Option.ext
      intro c
      have hlook' := fun path q => (hlook path q).symm
      exact ⟨hstep hs ht hs' ht' hlook nib c, hstep hs' ht' hs ht hlook' nib c⟩

end Tree
end TbNode
end Routemap
