/-
  Routemap.Arena.Pool

  The nodes of the arena as a pool: the edge a child slot stands for, the value a
  node holds, and what each write to the `Vec` does to the two.  A prefix is a
  path, the bits of its network from the top.

  `InBounds` says that every edge ends in the `Vec`; each write keeps it.
-/
import Routemap.Lib.Walk
import Routemap.Arena.Table

namespace Routemap

open Walk Network

/-! ## Bits of an address -/

section Bits

variable {bits a b : Nat}

/-- The bit of `a` at `depth`, from the top. -/
def bitOf (bits a depth : Nat) : Fin 2 := bitIndex (topBits bits a (depth + 1))

/-- The `k` bits of `a` from `depth` on. -/
def bitsFrom (bits a depth k : Nat) : List (Fin 2) := (List.range' depth k).map (bitOf bits a)

theorem bitsFrom_zero (bits a depth : Nat) : bitsFrom bits a depth 0 = [] := rfl

theorem bitsFrom_succ (bits a depth k : Nat) :
    bitsFrom bits a depth (k + 1) = bitOf bits a depth :: bitsFrom bits a (depth + 1) k := rfl

theorem bitsFrom_concat (bits a depth k : Nat) :
    bitsFrom bits a depth (k + 1) = bitsFrom bits a depth k ++ [bitOf bits a (depth + k)] := by
  rw [bitsFrom, List.range'_concat, List.map_append, Nat.one_mul]
  rfl

@[simp] theorem length_bitsFrom (bits a depth k : Nat) : (bitsFrom bits a depth k).length = k := by
  simp [bitsFrom]

theorem bitAt_ok {addr : U128} {depth : Nat} (hbits : bits ≤ 128) (hdepth : depth < bits) :
    bitAt addr bits depth = .ok (bitOf bits addr.toNat depth) := by
  rw [bitAt, checkedSub_ok (by omega), ok_bind, checkedSub_ok (by omega), ok_bind,
    shiftAmount_ok (by omega), ok_bind, pure_eq_ok, bitOf, topBits]
  congr 1
  apply Fin.ext
  rw [bitIndex, bitIndex, Fin.val_ofNat, Fin.val_ofNat, BitVec.toNat_and, BitVec.toNat_ushiftRight,
    Nat.shiftRight_eq_div_pow, show (1#128).toNat = 2 ^ 1 - 1 from rfl,
    Nat.and_two_pow_sub_one_eq_mod, Nat.pow_one, Nat.mod_mod,
    show bits - 1 - depth = bits - (depth + 1) by omega]

/-- One more bit doubles the top bits and adds the bit. -/
theorem topBits_bit {k : Nat} (h : k + 1 ≤ bits) :
    topBits bits a (k + 1) = 2 * topBits bits a k + (bitOf bits a k).val := by
  have hdiv : topBits bits a k = topBits bits a (k + 1) / 2 := by
    rw [topBits, topBits, Nat.div_div_eq_div_mul, ← Nat.pow_succ]
    congr 2
    omega
  rw [bitOf, bitIndex, Fin.val_ofNat, hdiv]
  exact (Nat.div_add_mod _ 2).symm

/-- The first `k` bits and the top `k` bits determine each other. -/
theorem bitsFrom_eq_iff {k : Nat} (hk : k ≤ bits) (ha : a < 2 ^ bits) (hb : b < 2 ^ bits) :
    bitsFrom bits a 0 k = bitsFrom bits b 0 k ↔ topBits bits a k = topBits bits b k := by
  induction k with
  | zero => simp [bitsFrom, topBits, Nat.div_eq_of_lt ha, Nat.div_eq_of_lt hb]
  | succ k ih =>
      rw [bitsFrom_concat, bitsFrom_concat, Nat.zero_add, topBits_bit hk, topBits_bit hk]
      refine ⟨?_, ?_⟩
      · intro h
        obtain ⟨hinit, hlast⟩ := List.append_inj h (by simp)
        rw [(ih (by omega)).mp hinit, List.singleton_inj.mp hlast]
      · intro h
        have hlta := (bitOf bits a k).isLt
        have hltb := (bitOf bits b k).isLt
        have hbit : bitOf bits a k = bitOf bits b k := Fin.ext (by omega)
        rw [(ih (by omega)).mpr (by omega), hbit]

/-- The bits that lead to a network. -/
def Network.bitPath (n : Network bits) : List (Fin 2) := bitsFrom bits n.addr.toNat 0 n.len

@[simp] theorem Network.length_bitPath (n : Network bits) : n.bitPath.length = n.len :=
  length_bitsFrom ..

theorem Network.bitPath_inj {n k : Network bits} : n.bitPath = k.bitPath ↔ n = k := by
  refine ⟨?_, ?_⟩
  · intro h
    have hlen : n.len = k.len := by
      have hlength := congrArg List.length h
      rwa [length_bitPath, length_bitPath] at hlength
    rw [Network.bitPath, Network.bitPath, hlen] at h
    apply Network.ext_top hlen
    rw [Network.top, Network.top, hlen]
    exact (bitsFrom_eq_iff k.len_le n.addr_lt k.addr_lt).mp h
  · rintro rfl
    rfl

theorem Network.bitPath_ofAddr (hbits : bits ≤ 128) (a : U128) (ha : a.toNat < 2 ^ bits)
    {len : Nat} (hlen : len ≤ bits) :
    (ofAddr hbits a ha len hlen).bitPath = bitsFrom bits a.toNat 0 len :=
  (bitsFrom_eq_iff hlen (addr_lt _) ha).mpr (ofTop_top ..)

end Bits

/-! ## The pool -/

section Pool

variable {V : Type} {nodes : List (ArenaNode V)} {node : ArenaNode V} {cur : Nat}

/-- An index as a link: `NULL` links to nothing. -/
def link (child : Nat) : Option Nat := if child = NULL then none else some child

/-- The child of a node. -/
def edge (nodes : List (ArenaNode V)) (i : Nat) (bit : Fin 2) : Option Nat :=
  nodes[i]?.bind fun node => link (node.children bit)

/-- The value of a node. -/
def valueOf (nodes : List (ArenaNode V)) (i : Nat) : Option V :=
  nodes[i]?.bind fun node => node.value

theorem edge_of_get (h : nodes[cur]? = some node) (bit : Fin 2) :
    edge nodes cur bit = link (node.children bit) := by
  rw [edge, h, Option.bind_some]

theorem valueOf_of_get (h : nodes[cur]? = some node) : valueOf nodes cur = node.value := by
  rw [valueOf, h, Option.bind_some]

theorem link_null : link NULL = none := if_pos rfl

theorem link_eq_none {child : Nat} : link child = none ↔ child = NULL := by
  simp [link]

theorem link_eq_some {child i : Nat} : link child = some i ↔ child ≠ NULL ∧ child = i := by
  simp [link]

/-- An edge is a slot that is not `NULL`. -/
theorem exists_of_edge {bit : Fin 2} {child : Nat} (h : edge nodes cur bit = some child) :
    ∃ node, nodes[cur]? = some node ∧ ¬ (node.children bit == NULL) = true
      ∧ node.children bit = child := by
  obtain ⟨node, hget, hlink⟩ := Option.bind_eq_some_iff.mp h
  obtain ⟨hnull, hchild⟩ := link_eq_some.mp hlink
  exact ⟨node, hget, by simpa using hnull, hchild⟩

/-- Where there is no edge, the slot is `NULL`. -/
theorem null_of_edge {bit : Fin 2} (hget : nodes[cur]? = some node)
    (h : edge nodes cur bit = none) : (node.children bit == NULL) = true := by
  rw [edge_of_get hget, link_eq_none] at h
  simpa using h

theorem children_setChild (node : ArenaNode V) (bit : Fin 2) (child : Nat) (bit' : Fin 2) :
    (node.setChild bit child).children bit' = if bit' = bit then child else node.children bit' :=
  Function.update_apply ..

/-- A node pushed has no link and no value. -/
theorem getElem?_push (nodes : List (ArenaNode V)) (i : Nat) :
    (nodes ++ [ArenaNode.new])[i]? = nodes[i]?
      ∨ nodes[i]? = none ∧ (nodes ++ [ArenaNode.new])[i]? = some ArenaNode.new := by
  rcases Nat.lt_trichotomy i nodes.length with hlt | heq | hgt
  · exact Or.inl (List.getElem?_append_left hlt)
  · subst heq
    exact Or.inr ⟨List.getElem?_eq_none (Nat.le_refl _), List.getElem?_concat_length ..⟩
  · left
    rw [List.getElem?_eq_none (by simp; omega), List.getElem?_eq_none (by omega)]

theorem edge_push (nodes : List (ArenaNode V)) : edge (nodes ++ [ArenaNode.new]) = edge nodes := by
  funext i bit
  rcases getElem?_push nodes i with h | ⟨hnone, hnew⟩
  · rw [edge, edge, h]
  · rw [edge, edge, hnone, hnew]
    exact link_null

theorem edge_new (i : Nat) (bit : Fin 2) : edge [(ArenaNode.new : ArenaNode V)] i bit = none := by
  have hpush := congrFun (congrFun (edge_push ([] : List (ArenaNode V))) i) bit
  rw [List.nil_append] at hpush
  rw [hpush]
  rfl

theorem valueOf_push (nodes : List (ArenaNode V)) :
    valueOf (nodes ++ [ArenaNode.new]) = valueOf nodes := by
  funext i
  rcases getElem?_push nodes i with h | ⟨hnone, hnew⟩
  · rw [valueOf, valueOf, h]
  · rw [valueOf, valueOf, hnone, hnew]
    rfl

theorem edge_setChild (h : nodes[cur]? = some node) (bit : Fin 2) (child : Nat) :
    edge (nodes.set cur (node.setChild bit child)) = setEdge (edge nodes) cur bit (link child) := by
  obtain ⟨hlt, -⟩ := List.getElem?_eq_some_iff.mp h
  funext i bit'
  by_cases hi : i = cur
  · subst hi
    rw [edge, List.getElem?_set_self hlt, Option.bind_some, children_setChild]
    by_cases hb : bit' = bit
    · subst hb
      rw [setEdge_self, if_pos rfl]
    · rw [setEdge_of_ne _ fun hib => hb hib.2, if_neg hb, edge_of_get h]
  · rw [edge, List.getElem?_set_ne (Ne.symm hi), setEdge_of_ne _ fun hib => hi hib.1, edge]

theorem valueOf_setChild (h : nodes[cur]? = some node) (bit : Fin 2) (child : Nat) :
    valueOf (nodes.set cur (node.setChild bit child)) = valueOf nodes := by
  obtain ⟨hlt, -⟩ := List.getElem?_eq_some_iff.mp h
  funext i
  by_cases hi : i = cur
  · subst hi
    rw [valueOf, List.getElem?_set_self hlt, Option.bind_some, valueOf_of_get h, ArenaNode.setChild]
  · rw [valueOf, List.getElem?_set_ne (Ne.symm hi), valueOf]

theorem edge_setValue (h : nodes[cur]? = some node) (w : Option V) :
    edge (nodes.set cur { node with value := w }) = edge nodes := by
  obtain ⟨hlt, -⟩ := List.getElem?_eq_some_iff.mp h
  funext i bit
  by_cases hi : i = cur
  · subst hi
    rw [edge, List.getElem?_set_self hlt, Option.bind_some, edge_of_get h]
  · rw [edge, List.getElem?_set_ne (Ne.symm hi), edge]

theorem valueOf_setValue (h : nodes[cur]? = some node) (w : Option V) :
    valueOf (nodes.set cur { node with value := w }) = Function.update (valueOf nodes) cur w := by
  obtain ⟨hlt, -⟩ := List.getElem?_eq_some_iff.mp h
  funext i
  by_cases hi : i = cur
  · subst hi
    rw [valueOf, List.getElem?_set_self hlt, Option.bind_some, Function.update_self]
  · rw [valueOf, List.getElem?_set_ne (Ne.symm hi), Function.update_of_ne hi, valueOf]

/-- There is a root, and every link is an index of the `Vec`. -/
structure InBounds (nodes : List (ArenaNode V)) : Prop where
  nonempty : 0 < nodes.length
  edge_lt : ∀ i bit j, edge nodes i bit = some j → j < nodes.length

/-- No edge leads to the node that is pushed next. -/
theorem InBounds.edge_ne_length (hb : InBounds nodes) (i : Nat) (bit : Fin 2) :
    edge nodes i bit ≠ some nodes.length :=
  fun h => Nat.lt_irrefl _ (hb.edge_lt i bit _ h)

theorem InBounds.setValue (hb : InBounds nodes) (h : nodes[cur]? = some node) (w : Option V) :
    InBounds (nodes.set cur { node with value := w }) where
  nonempty := by
    rw [List.length_set]
    exact hb.nonempty
  edge_lt := by
    rw [edge_setValue h, List.length_set]
    exact hb.edge_lt

/-- A node with no link and no value, as `remove_recursive` tests for it. -/
theorem leaf_iff (h : nodes[cur]? = some node) :
    Leaf (edge nodes) (valueOf nodes) cur ↔ (node.value.isNone && node.noChild) = true := by
  rw [ArenaNode.noChild, Bool.and_eq_true, Option.isNone_iff_eq_none, Bool.and_eq_true, beq_iff_eq,
    beq_iff_eq]
  refine ⟨?_, ?_⟩
  · rintro ⟨hedges, hvalue⟩
    have hnull : ∀ bit, node.children bit = NULL := by
      intro bit
      rw [← link_eq_none, ← edge_of_get h, hedges]
    exact ⟨by rw [← valueOf_of_get h, hvalue], hnull 0, hnull 1⟩
  · rintro ⟨hvalue, hzero, hone⟩
    refine ⟨?_, by rw [valueOf_of_get h, hvalue]⟩
    intro bit
    rw [edge_of_get h, link_eq_none]
    match bit with
    | 0 => exact hzero
    | 1 => exact hone

/-- An index the `Vec` has not reached. -/
theorem leaf_length (nodes : List (ArenaNode V)) :
    Leaf (edge nodes) (valueOf nodes) nodes.length where
  edges bit := by rw [edge, List.getElem?_eq_none (Nat.le_refl _), Option.bind_none]
  value := by rw [valueOf, List.getElem?_eq_none (Nat.le_refl _), Option.bind_none]

theorem unlink_ok (hget : nodes[cur]? = some node) (bit : Fin 2) :
    unlink nodes cur bit = .ok (nodes.set cur (node.setChild bit NULL)) := by
  obtain ⟨hcur, -⟩ := List.getElem?_eq_some_iff.mp hget
  rw [Routemap.unlink, vecGet_ok hget, ok_bind, vecSet_ok hcur]

/-! ## Pushing a node -/

variable {bit : Fin 2}

/-- The nodes after a push, with the new index written to a slot of node `cur`. -/
def pushAt (nodes : List (ArenaNode V)) (cur : Nat) (node : ArenaNode V) (bit : Fin 2) :
    List (ArenaNode V) :=
  (nodes ++ [ArenaNode.new]).set cur (node.setChild bit (nodes.length % 2 ^ 32))

theorem getElem?_push_of_get (hget : nodes[cur]? = some node) :
    (nodes ++ [ArenaNode.new])[cur]? = some node := by
  obtain ⟨hlt, -⟩ := List.getElem?_eq_some_iff.mp hget
  rw [List.getElem?_append_left hlt, hget]

theorem length_pushAt : (pushAt nodes cur node bit).length = nodes.length + 1 := by
  simp [pushAt]

theorem getElem?_pushAt_new (hget : nodes[cur]? = some node) :
    (pushAt nodes cur node bit)[nodes.length]? = some ArenaNode.new := by
  obtain ⟨hcur, -⟩ := List.getElem?_eq_some_iff.mp hget
  rw [pushAt, List.getElem?_set_ne (Nat.ne_of_lt hcur), List.getElem?_concat_length]

theorem edge_pushAt (hget : nodes[cur]? = some node) :
    edge (pushAt nodes cur node bit)
      = setEdge (edge nodes) cur bit (link (nodes.length % 2 ^ 32)) := by
  rw [pushAt, edge_setChild (getElem?_push_of_get hget), edge_push]

/-- Whatever the cast makes of the length, it is an index of the longer `Vec`. -/
theorem cast_lt_pushAt (nodes : List (ArenaNode V)) :
    nodes.length % 2 ^ 32 < (pushAt nodes cur node bit).length := by
  rw [length_pushAt]
  exact Nat.lt_succ_of_le (Nat.mod_le _ _)

/-- While indices last, the cast changes nothing and the index is not `NULL`. -/
theorem cast_length (h : nodes.length < NULL) : nodes.length % 2 ^ 32 = nodes.length := by
  rw [NULL] at h
  omega

theorem edge_pushAt_of_lt (hget : nodes[cur]? = some node) (h : nodes.length < NULL) :
    edge (pushAt nodes cur node bit) = setEdge (edge nodes) cur bit (some nodes.length) := by
  rw [edge_pushAt hget, cast_length h, link, if_neg (Nat.ne_of_lt h)]

/-- The pushed node has no children. -/
theorem edge_pushAt_new (hget : nodes[cur]? = some node) (h : nodes.length < NULL) (bit' : Fin 2) :
    edge (pushAt nodes cur node bit) (nodes.length % 2 ^ 32) bit' = none := by
  obtain ⟨hcur, -⟩ := List.getElem?_eq_some_iff.mp hget
  rw [edge_pushAt_of_lt hget h, cast_length h, setEdge_of_ne _ fun hij => Nat.ne_of_gt hcur hij.1]
  exact (leaf_length nodes).edges bit'

theorem valueOf_pushAt (hget : nodes[cur]? = some node) :
    valueOf (pushAt nodes cur node bit) = valueOf nodes := by
  rw [pushAt, valueOf_setChild (getElem?_push_of_get hget), valueOf_push]

theorem InBounds.pushAt (hb : InBounds nodes) (hget : nodes[cur]? = some node) :
    InBounds (pushAt nodes cur node bit) where
  nonempty := by rw [length_pushAt]; omega
  edge_lt i bit' j h := by
    rw [edge_pushAt hget] at h
    by_cases hib : i = cur ∧ bit' = bit
    · obtain ⟨rfl, rfl⟩ := hib
      rw [setEdge_self, link_eq_some] at h
      rw [← h.2]
      exact cast_lt_pushAt nodes
    · rw [setEdge_of_ne _ hib] at h
      have hj := hb.edge_lt i bit' j h
      rw [length_pushAt]
      omega

end Pool
end Routemap
