/-
  Routemap.Treebitmap.Refine

  The table refines a map from networks.  `Represents t m` ties a `RouteMap` to
  the map it stands for: its tree is well formed and pruned, holds in the slot
  of each network what `m` holds for it, and its counter counts the entries.

  Each update keeps the relation, each exact query reads the map, and none of
  them faults.  The longest match is in `Lookup`, the iterator in `Entries`.
-/
import Routemap.Treebitmap.Exec
import Routemap.Treebitmap.Table
import Routemap.Fib

namespace Routemap

open TbNode

section Address

variable (A : Type) [IpAddress A]

theorem stride_dvd : 4 ∣ IpAddress.bits A := by
  rcases IpAddress.bits_eq (A := A) with h | h <;> omega

/-- Levels of a tree below its root. -/
abbrev levels : Nat := IpAddress.bits A / 4

variable {A}

/-- The arguments with which the routines are called for a network. -/
theorem Network.descent (n : Network (IpAddress.bits A)) :
    Descent (IpAddress.bits A) 0 (levels A) (n.len / STRIDE) (n.len % STRIDE) where
  bits_le := bits_le A
  strides := by
    have hdvd := stride_dvd A
    rw [levels]
    omega
  full := Nat.div_le_div_right n.len_le
  rel_lt := Nat.mod_lt _ (Nat.succ_pos _)
  bottom h := by
    have hdvd := stride_dvd A
    have hlen := n.len_le
    show n.len % 4 = 0
    change n.len / 4 = IpAddress.bits A / 4 at h
    omega

end Address

namespace RouteMap

variable {A V : Type} [IpAddress A]

/-- `t` is a well formed table that holds `m`. -/
structure Represents (t : RouteMap A V) (m : Fib (IpAddress.bits A) V) : Prop where
  shape : Shape (levels A) t.root
  tight : Tight (levels A) t.root
  lookup_eq : ∀ n : Network (IpAddress.bits A), t.root.lookup n.path n.pos = m n
  count_eq : t.count = (History.support m).ncard

/-- `t` holds `m` and is well formed, but it may have empty nodes below the root. -/
structure Holds (t : RouteMap A V) (m : Fib (IpAddress.bits A) V) : Prop where
  shape : Shape (levels A) t.root
  lookup_eq : ∀ n : Network (IpAddress.bits A), t.root.lookup n.path n.pos = m n
  count_eq : t.count = (History.support m).ncard

variable {t : RouteMap A V} {m : Fib (IpAddress.bits A) V}

theorem Represents.holds (h : Represents t m) : Holds t m := ⟨h.shape, h.lookup_eq, h.count_eq⟩

theorem Holds.represents (h : Holds t m) (ht : Tight (levels A) t.root) : Represents t m :=
  ⟨h.shape, ht, h.lookup_eq, h.count_eq⟩

theorem slot_network (n : Network (IpAddress.bits A)) : Slot (levels A) n.path n.pos :=
  n.slot (stride_dvd A)

/-- Every value in the tree is the value of a network. -/
theorem Represents.lookup_slot (h : Represents t m) {path : List Nat} {q : Nat}
    (s : Slot (levels A) path q) :
    t.root.lookup path q = m (Network.ofSlot (bits_le A) (stride_dvd A) s) := by
  rw [← h.lookup_eq, Network.ofSlot_path, Network.ofSlot_pos]

/-! ## The operations at the slot of a prefix -/

omit [IpAddress A] in
/-- Whether the counter goes down or stays, the tree is the one that was put back. -/
theorem root_of_counted {root : TbNode V} {value gone : Option V} {t' : RouteMap A V}
    (hrun : (do
        let count ← if value.isSome then checkedSub t.count 1 else pure t.count
        pure (RouteMap.mk root count, value) : M (RouteMap A V × Option V)) = .ok (t', gone)) :
    t'.root = root := by
  dsimp only at hrun
  split at hrun
  · obtain ⟨count, -, heq⟩ := bind_eq_ok.mp hrun
    cases heq
    rfl
  · cases hrun
    rfl

section Packed

variable (hp : Packed t.root) (pfx : IpPrefix A)
include hp

theorem insert_eq (v : V) :
    t.insert pfx v = .ok ⟨t.root.insertPath (network pfx).path (network pfx).pos v,
      if (t.root.lookup (network pfx).path (network pfx).pos).isNone then t.count + 1
        else t.count⟩ := by
  have hrun := insertAt_eq (network pfx).addr hp (network pfx).descent v
  rw [Nat.zero_add] at hrun
  exact congrArg (fun x => x >>= _) hrun

theorem remove_eq :
    t.remove pfx = (do
      let value := t.root.lookup (network pfx).path (network pfx).pos
      let count ← if value.isSome then checkedSub t.count 1 else pure t.count
      pure (⟨t.root.removePath (network pfx).path (network pfx).pos, count⟩, value)) := by
  have hrun := removeAt_eq (network pfx).addr hp (network pfx).descent
  rw [Nat.zero_add] at hrun
  exact congrArg (fun x => x >>= _) hrun

theorem remove_root {t' : RouteMap A V} {gone : Option V}
    (hrun : t.remove pfx = .ok (t', gone)) :
    t'.root = t.root.removePath (network pfx).path (network pfx).pos :=
  root_of_counted ((remove_eq hp pfx).symm.trans hrun)

theorem get_eq : t.get pfx = .ok (t.root.lookup (network pfx).path (network pfx).pos) := by
  have hrun := getAt_eq (network pfx).addr hp (network pfx).descent
  rw [Nat.zero_add] at hrun
  exact hrun

theorem contains_eq :
    t.contains pfx = .ok (t.root.lookup (network pfx).path (network pfx).pos).isSome := by
  have hrun := containsAt_eq (network pfx).addr hp (network pfx).descent
  rw [Nat.zero_add] at hrun
  exact hrun

end Packed

/-! ## Updates -/

theorem represents_new : Represents (new : RouteMap A V) (fun _ => none) where
  shape := shape_new _
  tight := tight_new _
  lookup_eq n := lookup_new _ _
  count_eq := by simp [new, History.support]

/-- Two networks have the same slot only if they are the same. -/
theorem slot_eq_iff (n k : Network (IpAddress.bits A)) :
    (n.path = k.path ∧ n.pos = k.pos) ↔ n = k := by
  refine ⟨?_, ?_⟩
  · rintro ⟨hpath, hpos⟩
    exact Network.slot_injective (stride_dvd A) hpath hpos
  · rintro rfl
    exact ⟨rfl, rfl⟩

/-- **Insert** writes the entry of the masked prefix. -/
theorem Holds.insert (h : Holds t m) (pfx : IpPrefix A) (v : V) :
    ∃ t', t.insert pfx v = .ok t'
      ∧ Holds t' (Function.update m (network pfx) (some v)) := by
  refine ⟨_, insert_eq h.shape.packed pfx v, ?_⟩
  constructor
  case shape => exact h.shape.insertPath (slot_network _) v
  case lookup_eq =>
    intro n
    have hlook := h.shape.packed.lookup_insertPath (slot_network (network pfx)).nibble_lt_word
      (slot_network (network pfx)).lt_word v n.path n.pos
    rw [Function.update_apply, ← h.lookup_eq n]
    simpa only [slot_eq_iff] using hlook
  case count_eq =>
    rw [History.ncard_support_put, ← h.count_eq, h.lookup_eq]
    cases (m (network pfx)).isNone <;> rfl

theorem Represents.insert (h : Represents t m) (pfx : IpPrefix A) (v : V) :
    ∃ t', t.insert pfx v = .ok t'
      ∧ Represents t' (Function.update m (network pfx) (some v)) := by
  obtain ⟨t', hrun, h'⟩ := h.holds.insert pfx v
  refine ⟨t', hrun, h'.represents ?_⟩
  rw [insert_eq h.shape.packed] at hrun
  cases hrun
  exact h.tight.insertPath h.shape (slot_network _) v

/-- A tree with one slot cleared, and the counter lowered if the slot was set. -/
theorem Holds.delete (h : Holds t m) (n : Network (IpAddress.bits A)) {root : TbNode V}
    (hs : Shape (levels A) root)
    (hlook : ∀ path q, root.lookup path q
      = if path = n.path ∧ q = n.pos then none else t.root.lookup path q) :
    ∃ t', (do
        let count ← if (m n).isSome then checkedSub t.count 1 else pure t.count
        pure (RouteMap.mk root count, m n)) = .ok (t', m n)
      ∧ Holds t' (Function.update m n none) := by
  have hcard := History.ncard_support_del (m := m) (k := n)
  rw [← h.count_eq] at hcard
  refine ⟨⟨root, (History.support (Function.update m n none)).ncard⟩, ?_, hs, ?_, rfl⟩
  · cases hm : m n with
    | none =>
        -- nothing is removed, and the counter stays
        rw [hm] at hcard
        exact congrArg (fun count => Except.ok (RouteMap.mk root count, none)) hcard
    | some v =>
        -- the entry that is removed was counted
        rw [hm, Option.isSome_some, if_pos rfl] at hcard
        have hsub : checkedSub t.count 1
            = .ok (History.support (Function.update m n none)).ncard := by
          rw [checkedSub_ok (by omega), hcard, Nat.add_sub_cancel]
        exact congrArg (fun x => x >>= fun count => pure (RouteMap.mk root count, some v)) hsub
  · intro k
    have hk := hlook k.path k.pos
    rw [Function.update_apply, ← h.lookup_eq k]
    simpa only [slot_eq_iff] using hk

/-- **Remove** returns the entry of the masked prefix and deletes it. -/
theorem Holds.remove (h : Holds t m) (pfx : IpPrefix A) :
    ∃ t', t.remove pfx = .ok (t', m (network pfx))
      ∧ Holds t' (Function.update m (network pfx) none) := by
  rw [remove_eq h.shape.packed, h.lookup_eq]
  exact h.delete (network pfx) (h.shape.removePath _ _)
    (h.shape.packed.lookup_removePath (network pfx).path (network pfx).pos)

theorem Represents.remove (h : Represents t m) (pfx : IpPrefix A) :
    ∃ t', t.remove pfx = .ok (t', m (network pfx))
      ∧ Represents t' (Function.update m (network pfx) none) := by
  obtain ⟨t', hrun, h'⟩ := h.holds.remove pfx
  refine ⟨t', hrun, h'.represents ?_⟩
  rw [remove_root h.shape.packed pfx hrun]
  exact h.tight.removePath h.shape _ _

/-- **Clear** leaves the empty table. -/
theorem represents_clear (t : RouteMap A V) : Represents t.clear (fun _ => none) :=
  represents_new

/-- **FromIterator** replays the pairs as inserts. -/
theorem Represents.foldlM_insert (h : Represents t m) (pairs : List (IpPrefix A × V)) :
    ∃ t', pairs.foldlM (fun t (pfx, value) => t.insert pfx value) t = .ok t'
      ∧ Represents t' ((pairs.map fun (pfx, v) => .put (network pfx) v).foldl History.apply m) := by
  induction pairs generalizing t m with
  | nil => exact ⟨t, rfl, h⟩
  | cons pair pairs ih =>
      obtain ⟨pfx, v⟩ := pair
      obtain ⟨t₁, hinsert, h₁⟩ := h.insert pfx v
      obtain ⟨t₂, hrest, h₂⟩ := ih h₁
      refine ⟨t₂, ?_, h₂⟩
      rw [List.foldlM_cons]
      exact (congrArg (fun x => x >>= _) hinsert).trans hrest

theorem represents_fromIter (pairs : List (IpPrefix A × V)) :
    ∃ t, fromIter pairs = .ok t
      ∧ Represents t (History.replay (pairs.map fun (pfx, v) => .put (network pfx) v)) :=
  represents_new.foldlM_insert pairs

/-! ## Exact queries -/

theorem Holds.get (h : Holds t m) (pfx : IpPrefix A) :
    t.get pfx = .ok (m (network pfx)) := by
  rw [get_eq h.shape.packed, h.lookup_eq]

theorem Holds.contains (h : Holds t m) (pfx : IpPrefix A) :
    t.contains pfx = .ok (m (network pfx)).isSome := by
  rw [contains_eq h.shape.packed, h.lookup_eq]

theorem Represents.get (h : Represents t m) (pfx : IpPrefix A) :
    t.get pfx = .ok (m (network pfx)) := h.holds.get pfx

theorem Represents.contains (h : Represents t m) (pfx : IpPrefix A) :
    t.contains pfx = .ok (m (network pfx)).isSome := h.holds.contains pfx

/-! ## Canonicity -/

/-- **A map has one table.** -/
theorem Represents.unique {t' : RouteMap A V} (h : Represents t m) (h' : Represents t' m) :
    t = t' := by
  have hroot : t.root = t'.root := by
    refine h.shape.ext_of_lookup h.tight h'.shape h'.tight ?_
    intro path q
    -- what one tree holds is in `m`, and so in the other tree
    have hslot : ∀ v, t.root.lookup path q = some v ↔ t'.root.lookup path q = some v := by
      intro v
      refine ⟨?_, ?_⟩
      · intro hv
        rw [h'.lookup_slot (h.shape.slot_of_lookup hv), ← h.lookup_slot, hv]
      · intro hv
        rw [h.lookup_slot (h'.shape.slot_of_lookup hv), ← h'.lookup_slot, hv]
    exact Option.ext hslot
  have hcount : t.count = t'.count := by rw [h.count_eq, h'.count_eq]
  cases t
  cases t'
  simp_all

end RouteMap
end Routemap
