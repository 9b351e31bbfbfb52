/-
  Routemap.Treebitmap.Invariant

  What holds of the tree and of the counter after every run: the representation
  invariant of each node at its depth, and the three ways of counting the
  entries.
-/
import Routemap.Treebitmap.Queries

namespace Routemap

open History TbNode

/-! ## Nodes -/

section Nodes

variable {V : Type}

/-- `n` is a node of the tree of `root`, at depth `d`. -/
inductive NodeIn (root : TbNode V) : Nat → TbNode V → Prop
  | root : NodeIn root 0 root
  | child {d : Nat} {n c : TbNode V} : NodeIn root d n → c ∈ n.children → NodeIn root (d + 1) c

/-- Every node is well formed, with as many levels below it as its depth leaves. -/
theorem TbNode.Shape.nodeIn {h d : Nat} {root n : TbNode V} (hs : Shape h root)
    (hn : NodeIn root d n) : d ≤ h ∧ Shape (h - d) n := by
  induction hn with
  | root => exact ⟨Nat.zero_le _, hs⟩
  | @child d n c _ hc ih =>
      obtain ⟨hd, hshape⟩ := ih
      obtain ⟨nib, hnib⟩ := hshape.nodeOk.exists_childAt hc
      obtain ⟨-, hpos⟩ := hshape.nodeOk.childAt_lt hnib
      have hlevel : h - d = h - (d + 1) + 1 := by omega
      exact ⟨by omega, (hlevel ▸ hshape : Shape (h - (d + 1) + 1) n).2 c hc⟩

end Nodes

variable {A V : Type} [IpAddress A]

/-- **Representation invariant.**  After every run, every node has its values at
    positions `1..=15` and its children at nibbles `0..=15`, one item in each `Vec`
    for each bit of its bitmap, and a depth of at most `A::BITS / 4`; at that depth
    it has no child and no value but that of position 1. -/
theorem node_invariant (calls : List (Call A V)) :
    ∃ t replies, runCalls calls = .ok (t, replies)
      ∧ ∀ d n, NodeIn t.root d n →
          (∀ i, n.internal.getLsbD i = true → 1 ≤ i ∧ i ≤ 15)
          ∧ (∀ i, n.external.getLsbD i = true → i ≤ 15)
          ∧ n.values.length = countOnes n.internal
          ∧ n.children.length = countOnes n.external
          ∧ d ≤ IpAddress.bits A / 4
          ∧ (d = IpAddress.bits A / 4 →
              n.external = 0 ∧ ∀ i, n.internal.getLsbD i = true → i = 1) := by
  obtain ⟨t, replies, m, hrun, h, -, -⟩ := run_live calls
  refine ⟨t, replies, hrun, ?_⟩
  intro d n hn
  obtain ⟨hd, hshape⟩ := h.shape.nodeIn hn
  have ok := hshape.nodeOk
  refine ⟨?_, ?_, ok.fit.length_values, ok.fit.length_children, hd, ?_⟩
  · intro i hi
    have hlt := ok.values_fit.bound i hi
    refine ⟨?_, by omega⟩
    by_contra hzero
    rw [show i = 0 by omega, ok.internal_zero] at hi
    cases hi
  · intro i hi
    have hlt := ok.children_fit.bound i hi
    omega
  · intro hbot
    exact ok.bottom (by rw [hbot, levels, Nat.sub_self])

/-! ## The counter -/

/-- A table whose counter is zero has an empty root, and the other way round. -/
theorem RouteMap.Represents.isEmpty_iff {t : RouteMap A V} {m : Fib (IpAddress.bits A) V}
    (h : Represents t m) : t.isEmpty = true ↔ ∀ n, m n = none := by
  rw [RouteMap.isEmpty, beq_iff_eq, h.count_eq, Set.ncard_eq_zero (Set.toFinite _)]
  refine ⟨?_, ?_⟩
  · intro hempty n
    by_contra hne
    have hmem : n ∈ support m := Option.isSome_iff_ne_none.mpr hne
    rw [hempty] at hmem
    exact hmem
  · intro hnone
    ext n
    simp [support, hnone n]

/-- Full pruning: a table without entries has a root without bits. -/
theorem RouteMap.Represents.root_isEmpty_iff {t : RouteMap A V} {m : Fib (IpAddress.bits A) V}
    (h : Represents t m) : t.root.isEmpty = true ↔ ∀ n, m n = none := by
  refine ⟨?_, ?_⟩
  · intro hempty n
    rw [← h.lookup_eq, lookup_of_isEmpty hempty]
  · intro hnone
    by_contra hne
    obtain ⟨path, q, v, hv⟩ := h.shape.exists_lookup h.tight (by simpa using hne)
    rw [h.lookup_slot (h.shape.slot_of_lookup hv), hnone] at hv
    cases hv

/-- **The counter is exact.**  After every run it is the number of internal bits in
    the tree, of live prefixes, and of entries iterated; a remove decrements it only
    from at least 1; and the table is empty exactly if its root has no bit, and
    exactly if no address has a match. -/
theorem count_invariant (calls : List (Call A V)) :
    ∃ t replies, runCalls calls = .ok (t, replies)
      ∧ t.count = t.root.ones
      ∧ t.count = {n | ∃ v, Live (writes calls) n v}.ncard
      ∧ (∃ entries, t.iter.collect = .ok entries ∧ entries.length = t.count)
      ∧ (∀ pfx t' v, t.remove pfx = .ok (t', some v) → 1 ≤ t.count ∧ t'.count = t.count - 1)
      ∧ (t.isEmpty = true ↔ t.root.internal = 0 ∧ t.root.external = 0)
      ∧ (t.isEmpty = true ↔ ∀ addr, t.longestMatch addr = .ok none) := by
  obtain ⟨t, replies, m, hrun, h, hlive, -⟩ := run_live calls
  obtain ⟨es, hcollect, hlist, hones, -⟩ := h.collect
  have hset : {n | ∃ v, Live (writes calls) n v} = support m := by
    ext n
    simp only [hlive, Set.mem_ofPred_eq, support, Option.isSome_iff_exists]
  refine ⟨t, replies, hrun, ?_, ?_, ⟨es, hcollect, ?_⟩, ?_, ?_, ?_⟩
  · rw [← hones, hlist.length_eq, h.count_eq]
  · rw [hset, h.count_eq]
  · rw [hlist.length_eq, h.count_eq]
  · intro pfx t' v hremove
    obtain ⟨t'', hremove', h'⟩ := h.remove pfx
    rw [hremove] at hremove'
    obtain ⟨rfl, hv⟩ := Prod.mk.inj (Except.ok.inj hremove')
    have hcard := ncard_support_del (m := m) (k := network pfx)
    rw [← hv, Option.isSome_some, if_pos rfl, ← h.count_eq, ← h'.count_eq] at hcard
    omega
  · rw [h.isEmpty_iff, ← h.root_isEmpty_iff, TbNode.isEmpty, Bool.and_eq_true, beq_iff_eq,
      beq_iff_eq]
  · rw [h.isEmpty_iff]
    refine ⟨?_, ?_⟩
    · intro hnone addr
      obtain ⟨found, -, hvalue, -, hfound⟩ := h.longestMatchEntry addr
      rw [hvalue, hfound.mpr fun n _ => hnone n, Option.map_none]
    · -- a network covers its own address, so a lookup of that would find it
      intro hall n
      obtain ⟨found, -, hvalue, -, hfound⟩ := h.longestMatchEntry (IpAddress.fromU128 n.addr)
      rw [hall] at hvalue
      have hnone := hfound.mp (Option.map_eq_none_iff.mp (Except.ok.inj hvalue).symm)
      rw [IpAddress.toU128_fromU128 _ n.addr_lt] at hnone
      exact hnone n rfl

end Routemap
