/-
  Routemap.Treebitmap.Entries

  The entries of a tree in the order of its iterator: first the values of a node
  by heap position, then its children by nibble, each with everything below it.
  An entry is a slot with its value.

  The keys of the slots are strictly increasing along the list (`entries_sorted`)
  and the list is what `lookup` finds (`mem_entries`).
-/
import Routemap.Treebitmap.Trie
import Mathlib.Algebra.GroupWithZero.Nat

namespace Routemap

variable {V : Type}

open RankVec (assoc)

/-- A slot: the nibbles to a node and a heap position in it. -/
abbrev SlotKey := List Nat × Nat

/-- Slots are compared by their nibbles, each above every heap position, followed
    by the position. -/
def orderKey (s : SlotKey) : List Nat := s.1.map (16 + ·) ++ [s.2]

namespace TbNode

/-- The values of a node from position `lo` on. -/
def valuesFrom (n : TbNode V) (path : List Nat) (lo : Nat) : List (SlotKey × V) :=
  (assoc n.internal.getLsbD n.values lo 16).map fun (q, v) => ((path, q), v)

/-- The entries of a tree with at most `h` levels below its root, which is reached
    by `path`. -/
def entries : Nat → TbNode V → List Nat → List (SlotKey × V)
  | 0, n, path => n.valuesFrom path 1
  | h + 1, n, path =>
    n.valuesFrom path 1 ++ (assoc n.external.getLsbD n.children 0 16).flatMap
      fun (nib, c) => c.entries h (path ++ [nib])

/-- The entries below the children of a node from nibble `lo` on. -/
def childrenFrom (h : Nat) (n : TbNode V) (path : List Nat) (lo : Nat) : List (SlotKey × V) :=
  (assoc n.external.getLsbD n.children lo 16).flatMap fun (nib, c) =>
    c.entries (h - 1) (path ++ [nib])

variable {h : Nat} {n : TbNode V}

theorem mem_valuesFrom {path : List Nat} {lo : Nat} {s : SlotKey} {v : V} :
    (s, v) ∈ n.valuesFrom path lo ↔
      s.1 = path ∧ lo ≤ s.2 ∧ s.2 < 16 ∧ n.valueAt s.2 = some v := by
  simp only [valuesFrom, List.mem_map, Prod.exists, Prod.mk.injEq]
  refine ⟨?_, ?_⟩
  · rintro ⟨q, w, hmem, rfl, rfl⟩
    exact ⟨rfl, RankVec.mem_assoc.mp hmem⟩
  · rintro ⟨rfl, hmem⟩
    exact ⟨s.2, v, RankVec.mem_assoc.mpr hmem, rfl, rfl⟩

theorem mem_childrenFrom {path : List Nat} {lo : Nat} {e : SlotKey × V} :
    e ∈ n.childrenFrom h path lo ↔
      ∃ nib c, lo ≤ nib ∧ nib < 16 ∧ n.childAt nib = some c
        ∧ e ∈ c.entries (h - 1) (path ++ [nib]) := by
  simp only [childrenFrom, List.mem_flatMap, Prod.exists]
  refine ⟨?_, ?_⟩
  · rintro ⟨nib, c, hmem, he⟩
    obtain ⟨hlo, hhi, hc⟩ := RankVec.mem_assoc.mp hmem
    exact ⟨nib, c, hlo, hhi, hc, he⟩
  · rintro ⟨nib, c, hlo, hhi, hc, he⟩
    exact ⟨nib, c, RankVec.mem_assoc.mpr ⟨hlo, hhi, hc⟩, he⟩

/-! ### From a cursor on -/

theorem valuesFrom_of_exhausted (n : TbNode V) (path : List Nat) {ic : Nat} (h : 16 ≤ ic) :
    n.valuesFrom path ic = [] := by
  rw [valuesFrom, RankVec.assoc_eq_nil _ fun q hq hq' => absurd hq' (by omega)]
  rfl

theorem childrenFrom_of_exhausted (h : Nat) (n : TbNode V) (path : List Nat) {ec : Nat}
    (hec : 16 ≤ ec) : n.childrenFrom h path ec = [] := by
  rw [childrenFrom, RankVec.assoc_eq_nil _ fun q hq hq' => absurd hq' (by omega)]
  rfl

theorem valuesFrom_of_shift_zero {ic : Nat} (hzero : n.internal >>> ic = 0#32) (path : List Nat) :
    n.valuesFrom path ic = [] := by
  rw [valuesFrom, RankVec.assoc_eq_nil _ fun q hq _ => RankVec.getLsbD_of_shift_zero hzero hq]
  rfl

theorem childrenFrom_of_shift_zero {ec : Nat} (hzero : n.external >>> ec = 0#32) (h : Nat)
    (path : List Nat) : n.childrenFrom h path ec = [] := by
  rw [childrenFrom, RankVec.assoc_eq_nil _ fun q hq _ => RankVec.getLsbD_of_shift_zero hzero hq]
  rfl

/-- The first value of a node from a cursor on. -/
theorem NodeFit.exists_value_of_shift (fit : NodeFit n) {ic : Nat}
    (hne : n.internal >>> ic ≠ 0#32) :
    ∃ v, n.valueAt (ic + trailingZeros (n.internal >>> ic)) = some v :=
  Option.isSome_iff_exists.mp ((fit.valueAt_isSome _).trans (RankVec.getLsbD_cursor hne))

/-- The first child of a node from a cursor on. -/
theorem NodeFit.exists_child_of_shift (fit : NodeFit n) {ec : Nat}
    (hne : n.external >>> ec ≠ 0#32) :
    ∃ c, n.childAt (ec + trailingZeros (n.external >>> ec)) = some c :=
  Option.isSome_iff_exists.mp ((fit.childAt_isSome _).trans (RankVec.getLsbD_cursor hne))

/-- The value at the first set bit from the cursor on is the first of those from it on. -/
theorem valuesFrom_cursor {ic : Nat} {v : V} (hlt : ic + trailingZeros (n.internal >>> ic) < 16)
    (hv : n.valueAt (ic + trailingZeros (n.internal >>> ic)) = some v) (path : List Nat) :
    n.valuesFrom path ic
      = ((path, ic + trailingZeros (n.internal >>> ic)), v)
        :: n.valuesFrom path (ic + trailingZeros (n.internal >>> ic) + 1) := by
  rw [valuesFrom, RankVec.assoc_cursor hlt hv]
  rfl

/-- The entries of the child at the first set bit from the cursor on are the first of those
    below the children from it on. -/
theorem childrenFrom_cursor {ec : Nat} {c : TbNode V}
    (hlt : ec + trailingZeros (n.external >>> ec) < 16)
    (hc : n.childAt (ec + trailingZeros (n.external >>> ec)) = some c) (h : Nat)
    (path : List Nat) :
    n.childrenFrom h path ec
      = c.entries (h - 1) (path ++ [ec + trailingZeros (n.external >>> ec)])
        ++ n.childrenFrom h path (ec + trailingZeros (n.external >>> ec) + 1) := by
  rw [childrenFrom, RankVec.assoc_cursor hlt hc, List.flatMap_cons]
  rfl

/-- The values of a node come first, and then its children. -/
theorem Shape.entries_eq (hs : Shape h n) (path : List Nat) :
    n.entries h path = n.valuesFrom path 1 ++ n.childrenFrom h path 0 := by
  cases h with
  | succ h => rfl
  | zero =>
      -- at the bottom the second part is empty
      have hnil : n.childrenFrom 0 path 0 = [] := by
        rw [List.eq_nil_iff_forall_not_mem]
        intro e he
        obtain ⟨nib, c, -, -, hc, -⟩ := mem_childrenFrom.mp he
        exact absurd (hs.nodeOk.childAt_lt hc).2 (by decide)
      rw [hnil, List.append_nil, entries]

/-- **The entries of a tree are what its slots hold.** -/
theorem Shape.mem_entries (hs : Shape h n) {path : List Nat} {s : SlotKey} {v : V} :
    (s, v) ∈ n.entries h path ↔ ∃ rest, s.1 = path ++ rest ∧ n.lookup rest s.2 = some v := by
  induction h generalizing n path with
  | zero =>
      rw [entries, mem_valuesFrom]
      refine ⟨?_, ?_⟩
      · rintro ⟨hpath, -, -, hv⟩
        exact ⟨[], by simpa using hpath, hv⟩
      · rintro ⟨rest, hpath, hv⟩
        have slot := hs.slot_of_lookup hv
        obtain rfl : rest = [] := List.eq_nil_of_length_eq_zero (Nat.le_zero.mp slot.length_le)
        exact ⟨by simpa using hpath, slot.pos, slot.lt, hv⟩
  | succ h ih =>
      rw [hs.entries_eq, List.mem_append, mem_valuesFrom, mem_childrenFrom]
      refine ⟨?_, ?_⟩
      · rintro (⟨hpath, -, -, hv⟩ | ⟨nib, c, -, -, hc, he⟩)
        · exact ⟨[], by simpa using hpath, hv⟩
        · obtain ⟨rest, hpath, hv⟩ := (ih (hs.child hc)).mp he
          exact ⟨nib :: rest, by simpa using hpath, by rw [lookup, hc, Option.bind_some, hv]⟩
      · rintro ⟨rest, hpath, hv⟩
        have slot := hs.slot_of_lookup hv
        -- the slot is in this node, or below the child its path starts with
        cases rest with
        | nil => exact Or.inl ⟨by simpa using hpath, slot.pos, slot.lt, hv⟩
        | cons nib rest =>
            rw [lookup] at hv
            obtain ⟨c, hc, hv⟩ := Option.bind_eq_some_iff.mp hv
            refine Or.inr ⟨nib, c, Nat.zero_le _, slot.head_lt, hc, ?_⟩
            exact (ih (hs.child hc)).mpr ⟨rest, by simpa using hpath, hv⟩

/-! ## Order -/

/-- Every entry of a tree is below the path of its root. -/
theorem Shape.orderKey_entries (hs : Shape h n) {path : List Nat} {e : SlotKey × V}
    (he : e ∈ n.entries h path) : ∃ rest, orderKey e.1 = path.map (16 + ·) ++ rest := by
  obtain ⟨rest, hpath, -⟩ := (hs.mem_entries (s := e.1) (v := e.2)).mp he
  exact ⟨orderKey (rest, e.1.2), by rw [orderKey, orderKey, hpath, List.map_append,
    List.append_assoc]⟩

/-- Lists that differ after a common start compare by the first difference. -/
theorem append_cons_lt (l : List Nat) {a b : Nat} (hab : a < b) (as bs : List Nat) :
    l ++ a :: as < l ++ b :: bs := List.append_left_lt (List.Lex.rel hab)

theorem valuesFrom_sorted (path : List Nat) (lo : Nat) :
    (n.valuesFrom path lo).Pairwise fun a b => orderKey a.1 < orderKey b.1 := by
  rw [valuesFrom, List.pairwise_map]
  refine (RankVec.assoc_sorted _ _ _ _).imp ?_
  intro a b hab
  exact append_cons_lt _ hab [] []

/-- **The entries of a tree come in increasing order of their slots.** -/
theorem Shape.entries_sorted (hs : Shape h n) (path : List Nat) :
    (n.entries h path).Pairwise fun a b => orderKey a.1 < orderKey b.1 := by
  induction h generalizing n path with
  | zero => exact valuesFrom_sorted path 1
  | succ h ih =>
      rw [hs.entries_eq, List.pairwise_append]
      refine ⟨valuesFrom_sorted path 1, ?_, ?_⟩
      · -- within a child by induction, between two children by their nibbles
        rw [childrenFrom, List.pairwise_flatMap]
        refine ⟨?_, ?_⟩
        · rintro ⟨nib, c⟩ hmem
          obtain ⟨-, -, hc⟩ := RankVec.mem_assoc.mp hmem
          exact ih (hs.child hc) _
        · refine (RankVec.assoc_sorted _ _ _ _).imp_of_mem ?_
          rintro ⟨nib, c⟩ ⟨nib', c'⟩ hmem hmem' hlt a ha b hb
          obtain ⟨-, -, hc⟩ := RankVec.mem_assoc.mp hmem
          obtain ⟨-, -, hc'⟩ := RankVec.mem_assoc.mp hmem'
          obtain ⟨rest, hka⟩ := (hs.child hc).orderKey_entries ha
          obtain ⟨rest', hkb⟩ := (hs.child hc').orderKey_entries hb
          rw [hka, hkb, List.map_append, List.map_append, List.append_assoc, List.append_assoc]
          exact append_cons_lt _ (Nat.add_lt_add_left hlt 16) _ _
      · -- a value position is below every nibble, which counts from 16
        rintro ⟨⟨p, q⟩, v⟩ ha b hb
        obtain ⟨hp, -, hq, -⟩ := mem_valuesFrom.mp ha
        obtain ⟨nib, c, -, -, hc, he⟩ := mem_childrenFrom.mp hb
        obtain ⟨rest, hkb⟩ := (hs.child hc).orderKey_entries he
        obtain rfl : p = path := hp
        rw [hkb, orderKey, List.map_append, List.append_assoc]
        exact append_cons_lt _ (show q < 16 + nib by omega) _ _

/-! ## Number -/

mutual
/-- The sum of `internal.count_ones()` over all nodes of a tree. -/
def ones : TbNode V → Nat
  | ⟨internal, _, _, children⟩ => countOnes internal + onesBelow children

/-- The sum over all nodes of a list of trees. -/
def onesBelow : List (TbNode V) → Nat
  | [] => 0
  | child :: rest => child.ones + onesBelow rest
end

theorem onesBelow_eq (children : List (TbNode V)) :
    onesBelow children = (children.map ones).sum := by
  induction children with
  | nil => rfl
  | cons c rest ih => rw [onesBelow, ih, List.map_cons, List.sum_cons]

theorem ones_eq (n : TbNode V) : n.ones = countOnes n.internal + (n.children.map ones).sum := by
  cases n
  rw [ones, onesBelow_eq]

theorem NodeOk.length_valuesFrom (ok : NodeOk h n) (path : List Nat) :
    (n.valuesFrom path 1).length = countOnes n.internal := by
  rw [valuesFrom, List.length_map, ← RankVec.assoc_of_clear (by decide) ok.internal_zero,
    ← List.length_map Prod.snd, ok.values_fit.assoc_snd, ok.fit.length_values]

/-- **A tree has as many entries as its nodes have internal bits.** -/
theorem Shape.length_entries (hs : Shape h n) (path : List Nat) :
    (n.entries h path).length = n.ones := by
  induction h generalizing n path with
  | zero =>
      have hnil : n.children = [] := by
        have hfit := hs.nodeOk.fit.length_children
        rw [(hs.nodeOk.bottom rfl).1] at hfit
        exact List.eq_nil_of_length_eq_zero hfit
      rw [entries, hs.nodeOk.length_valuesFrom, ones_eq, hnil]
      rfl
  | succ h ih =>
      have hchildren : (n.childrenFrom (h + 1) path 0).length = (n.children.map ones).sum := by
        have hsnd := hs.nodeOk.children_fit.assoc_snd
        rw [childrenFrom, List.length_flatMap, ← congrArg (List.map ones) hsnd, List.map_map]
        congr 1
        apply List.map_congr_left
        rintro ⟨nib, c⟩ hmem
        obtain ⟨-, -, hc⟩ := RankVec.mem_assoc.mp hmem
        exact ih (hs.child hc) _
      rw [hs.entries_eq, List.length_append, hs.nodeOk.length_valuesFrom, hchildren, ← ones_eq]

end TbNode
end Routemap
