/-
  Routemap.Treebitmap.Untouched

  What an update leaves alone, on every tree whose bitmaps agree with its `Vec`s,
  pruned or not.  A remove that finds nothing gives the table back as it was: the
  prune flag is off from where the search stops up to the root.  An insert over an
  old value keeps the skeleton of the tree, and every other value.
-/
import Routemap.Treebitmap.Refine

namespace Routemap

variable {V : Type}

namespace TbNode

/-! ## The skeleton of a tree -/

mutual
/-- The tree without what its values are: its bitmaps, the lengths of its `Vec`s
    and the nodes below. -/
def skeleton : TbNode V → TbNode Unit
  | ⟨internal, external, values, children⟩ =>
    ⟨internal, external, values.map fun _ => (), skeletons children⟩

/-- The skeletons of a list of trees. -/
def skeletons : List (TbNode V) → List (TbNode Unit)
  | [] => []
  | child :: rest => child.skeleton :: skeletons rest
end

theorem skeletons_eq (children : List (TbNode V)) : skeletons children = children.map skeleton := by
  induction children with
  | nil => rfl
  | cons c rest ih => rw [skeletons, ih, List.map_cons]

theorem skeleton_eq (n : TbNode V) :
    n.skeleton
      = ⟨n.internal, n.external, n.values.map fun _ => (), n.children.map skeleton⟩ := by
  cases n
  rw [skeleton, skeletons_eq]

/-- Overwriting a value keeps the skeleton of its node. -/
theorem skeleton_setValue {n : TbNode V} {q : Nat} {w : V} (hw : n.valueAt q = some w) (v : V) :
    (n.setValue q v).skeleton = n.skeleton := by
  rw [skeleton_eq, skeleton_eq, setValue_of_some hw]
  congr 1
  apply List.ext_getElem?
  intro i
  simp

/-- Replacing a child by one with its skeleton keeps the skeleton. -/
theorem skeleton_setChild {n c c' : TbNode V} {nib : Nat} (hc : n.childAt nib = some c)
    (hsame : c'.skeleton = c.skeleton) : (n.setChild nib c').skeleton = n.skeleton := by
  have hget := (RankVec.look_eq_some.mp hc).2
  rw [skeleton_eq, skeleton_eq, setChild_of_some hc]
  congr 1
  -- the new child stands where the old one stood
  rw [List.map_set, hsame]
  apply set_of_get
  rw [List.getElem?_map, hget, Option.map_some]

/-- **Overwriting a value keeps the skeleton of the tree.** -/
theorem skeleton_insertPath {n : TbNode V} {path : List Nat} {q : Nat} {w : V}
    (hw : n.lookup path q = some w) (v : V) :
    (n.insertPath path q v).skeleton = n.skeleton := by
  induction path generalizing n with
  | nil => exact skeleton_setValue hw v
  | cons nib path ih =>
      rw [lookup] at hw
      obtain ⟨c, hc, hw⟩ := Option.bind_eq_some_iff.mp hw
      rw [insertPath, hc, Option.getD_some]
      exact skeleton_setChild hc (ih hw)

end TbNode

/-! ## The table -/

section Table

open TbNode

variable {A : Type} [IpAddress A] {t : RouteMap A V}

/-- **A remove that finds nothing** leaves the table as it was. -/
theorem RouteMap.remove_absent (hp : Packed t.root) {pfx : IpPrefix A}
    (habsent : t.root.lookup (network pfx).path (network pfx).pos = none) :
    t.remove pfx = .ok (t, none) := by
  rw [remove_eq hp, habsent, hp.removePath_of_none habsent]
  rfl

/-- **An insert over a value** writes its slot, and does not count. -/
theorem RouteMap.insert_present (hp : Packed t.root) {pfx : IpPrefix A} {w : V}
    (hpresent : t.root.lookup (network pfx).path (network pfx).pos = some w) (v : V) :
    t.insert pfx v
      = .ok ⟨t.root.insertPath (network pfx).path (network pfx).pos v, t.count⟩ := by
  rw [insert_eq hp, hpresent]
  rfl

/-- **What fails or overwrites touches nothing else.**  On every table with an item
    for each set bit, empty leaves included, `contains` tells whether a prefix is
    present.  If it is not, a remove returns nothing and leaves the very same table.
    If it is, an insert keeps the counter, all bitmaps and nodes, and every value but
    the one in the slot of the prefix. -/
theorem update_frame (t : RouteMap A V) (hp : Packed t.root) (pfx : IpPrefix A) :
    (∃ present, t.contains pfx = .ok present)
      ∧ (t.contains pfx = .ok false → t.remove pfx = .ok (t, none))
      ∧ (t.contains pfx = .ok true → ∀ v, ∃ t', t.insert pfx v = .ok t'
          ∧ t'.count = t.count
          ∧ t'.root.skeleton = t.root.skeleton
          ∧ ∀ path q, t'.root.lookup path q
              = if path = (network pfx).path ∧ q = (network pfx).pos then some v
                else t.root.lookup path q) := by
  have hcontains := RouteMap.contains_eq hp pfx
  refine ⟨⟨_, hcontains⟩, ?_, ?_⟩
  · intro habsent
    have hnone := Except.ok.inj (hcontains.symm.trans habsent)
    rw [Option.isSome_eq_false_iff, Option.isNone_iff_eq_none] at hnone
    exact RouteMap.remove_absent hp hnone
  · intro hpresent v
    obtain ⟨w, hw⟩ :=
      Option.isSome_iff_exists.mp (Except.ok.inj (hcontains.symm.trans hpresent))
    have s := RouteMap.slot_network (network pfx)
    exact ⟨_, RouteMap.insert_present hp hw v, rfl, skeleton_insertPath hw v,
      hp.lookup_insertPath s.nibble_lt_word s.lt_word v⟩

/-- A table of `0.0.0.0/0` with an empty leaf below the root, for nibble 0: a state
    that pruning never leaves. -/
def emptyLeafTable : RouteMap Ipv4Addr Nat :=
  ⟨⟨0b10, 0b1, [7], [TbNode.new]⟩, 1⟩

/-- `0.0.0.0/4` ends at the empty leaf, which is not pruned; `0.0.0.0/0` is there. -/
theorem update_frame_emptyLeaf :
    emptyLeafTable.remove (⟨0, 4, by decide⟩ : WordPrefix 32) = .ok (emptyLeafTable, none)
      ∧ ∃ t', emptyLeafTable.insert (⟨0, 0, by decide⟩ : WordPrefix 32) 8 = .ok t'
        ∧ t'.root.skeleton = emptyLeafTable.root.skeleton := by
  have hp : Packed emptyLeafTable.root := by
    refine .node (by decide) (by decide) ?_
    intro c hc
    rw [List.mem_singleton.mp hc]
    exact packed_new
  obtain ⟨-, hremove, -⟩ := update_frame emptyLeafTable hp (⟨0, 4, by decide⟩ : WordPrefix 32)
  obtain ⟨-, -, hinsert⟩ := update_frame emptyLeafTable hp (⟨0, 0, by decide⟩ : WordPrefix 32)
  obtain ⟨t', hrun, -, hskel, -⟩ := hinsert (by decide) 8
  exact ⟨hremove (by decide), t', hrun, hskel⟩

end Table
end Routemap
