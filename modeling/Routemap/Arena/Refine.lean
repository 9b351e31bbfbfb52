/-
  Routemap.Arena.Refine

  The arena refines a map from networks: a network is stored at the end of the
  path of its bits.

  `InBounds` alone rules out faults, and every operation keeps it.  While indices
  do not run out (`nodes.length ≤ NULL`), the pool is a forest and what is found
  in it is the map.
-/
import Routemap.Arena.Loops
import Routemap.Fib

namespace Routemap

open Walk Network

/-! ## Runs of the loops, in a forest -/

section Runs

variable {V : Type} {nodes nodes' : List (ArenaNode V)} {node : ArenaNode V} {cur child : Nat}
  {bit : Fin 2} {path rest : List (Fin 2)} {value : Option V} {empty : Bool}

/-- What the loop of `insert` does to the pool: the path is there afterwards, and
    what is found stays the same. -/
structure Extended (nodes nodes' : List (ArenaNode V)) (path : List (Fin 2)) (cur' : Nat) :
    Prop where
  forest : Forest (edge nodes')
  walk_eq : walk (edge nodes') 0 path = some cur'
  find_eq : ∀ p, find (edge nodes') (valueOf nodes') p = find (edge nodes) (valueOf nodes) p

/-- While indices last, the pushed node is a fresh leaf of the forest. -/
theorem Extended.pushAt (hb : InBounds nodes) (hget : nodes[cur]? = some node)
    (hfree : edge nodes cur bit = none) (hlen : nodes.length < NULL) (hf : Forest (edge nodes))
    (hpath : walk (edge nodes) 0 path = some cur) :
    Extended nodes (pushAt nodes cur node bit) (path ++ [bit]) (nodes.length % 2 ^ 32) := by
  obtain ⟨hcur, -⟩ := List.getElem?_eq_some_iff.mp hget
  have hedge : edge (Routemap.pushAt nodes cur node bit)
      = setEdge (edge nodes) cur bit (some nodes.length) := edge_pushAt_of_lt hget hlen
  refine ⟨?_, ?_, ?_⟩
  · rw [hedge]
    exact hf.link hcur hb.edge_ne_length
  · rw [hedge, cast_length hlen]
    exact walk_snoc (walk_mono (link_sub hfree) hpath) (setEdge_self ..)
  · intro p
    rw [hedge, valueOf_pushAt hget]
    exact find_link hfree (leaf_length nodes) (Nat.ne_of_lt hcur) p

/-- While indices last, `insert` leaves its path in the pool and nothing else is
    found differently. -/
theorem InsertRun.extended {cur' : Nat} (h : InsertRun nodes cur rest nodes' cur')
    (hb : InBounds nodes) (hlen : nodes'.length ≤ NULL) (hf : Forest (edge nodes))
    (hpath : walk (edge nodes) 0 path = some cur) : Extended nodes nodes' (path ++ rest) cur' := by
  induction h generalizing path with
  | done =>
      rw [List.append_nil]
      exact ⟨hf, hpath, fun p => rfl⟩
  | follow hedge _ ih =>
      rw [List.append_cons]
      exact ih hb hlen hf (walk_snoc hpath hedge)
  | push hget hfree hrest ih =>
      -- the indices last to the end, so the one pushed here was below `NULL`
      have hlt := hrest.length_lt
      have hpush := Extended.pushAt hb hget hfree (by omega) hf hpath
      have hext := ih (hb.pushAt hget) hlen hpush.forest hpush.walk_eq
      rw [List.append_cons]
      exact ⟨hext.forest, hext.walk_eq, fun p => by rw [hext.find_eq, hpush.find_eq]⟩

/-- What `remove_recursive` does to the pool from node `cur` on, which `path` leads
    to: it clears the value at the end of `rest`, leaves the nodes before `cur`
    alone, and says truly that `cur` is an empty leaf. -/
structure Removed (nodes nodes' : List (ArenaNode V)) (cur : Nat) (path : List (Fin 2))
    (value : Option V) (empty : Bool) : Prop where
  forest : Forest (edge nodes')
  before : ∀ j < cur, nodes'[j]? = nodes[j]?
  leaf : empty = true → Leaf (edge nodes') (valueOf nodes') cur
  value_eq : value = find (edge nodes) (valueOf nodes) path
  find_eq : ∀ p, find (edge nodes') (valueOf nodes') p
    = if p = path then none else find (edge nodes) (valueOf nodes) p

/-- The bottom of the recursion: the value of the node is taken. -/
theorem Removed.clear (hget : nodes[cur]? = some node) (hf : Forest (edge nodes))
    (hpath : walk (edge nodes) 0 path = some cur) :
    Removed nodes (nodes.set cur { node with value := none }) cur path node.value
      node.noChild where
  forest := by
    rw [edge_setValue hget]
    exact hf
  before j hj := List.getElem?_set_ne (Nat.ne_of_gt hj)
  leaf hempty := by
    obtain ⟨hcur, -⟩ := List.getElem?_eq_some_iff.mp hget
    exact (leaf_iff (List.getElem?_set_self hcur)).mpr hempty
  value_eq := by rw [find, hpath, Option.bind_some, valueOf_of_get hget]
  find_eq p := by
    rw [edge_setValue hget, valueOf_setValue hget]
    exact hf.find_update _ hpath none p

/-- The path ends before the prefix: nothing is removed. -/
theorem Removed.absent (hf : Forest (edge nodes)) (hpath : walk (edge nodes) 0 path = some cur)
    (hnone : edge nodes cur bit = none) (rest : List (Fin 2)) :
    Removed nodes nodes cur (path ++ bit :: rest) none false := by
  have hfind : find (edge nodes) (valueOf nodes) (path ++ bit :: rest) = none := by
    rw [find, walk_append, hpath, Option.bind_some, walk, hnone]
    rfl
  refine ⟨hf, fun j _ => rfl, fun hempty => Bool.noConfusion hempty, hfind.symm, ?_⟩
  intro p
  split
  case isTrue heq => rw [heq, hfind]
  case isFalse => rfl

theorem Removed.edge_eq (h : Removed nodes nodes' child path value empty) (hlt : cur < child) :
    edge nodes' cur = edge nodes cur := by
  funext bit
  rw [edge, edge, h.before cur hlt]

/-- The way back up, with the child kept. -/
theorem Removed.keep (h : Removed nodes nodes' child path value false) (hlt : cur < child)
    (hget : nodes'[cur]? = some node) :
    Removed nodes nodes' cur path value (node.value.isNone && node.noChild) where
  forest := h.forest
  before j hj := h.before j (Nat.lt_trans hj hlt)
  leaf hempty := (leaf_iff hget).mpr hempty
  value_eq := h.value_eq
  find_eq := h.find_eq

/-- The way back up, with the child cut off. -/
theorem Removed.unlink (h : Removed nodes nodes' child path value true) (hlt : cur < child)
    (hedge : edge nodes cur bit = some child) (hget : nodes'[cur]? = some node) :
    Removed nodes (nodes'.set cur (node.setChild bit NULL)) cur path value
      ((node.setChild bit NULL).value.isNone && (node.setChild bit NULL).noChild) where
  forest := by
    rw [edge_setChild hget, link_null]
    exact h.forest.mono fun i bit j => unlink_sub i bit j
  before j hj := by
    rw [List.getElem?_set_ne (Nat.ne_of_gt hj), h.before j (Nat.lt_trans hj hlt)]
  leaf hempty := by
    obtain ⟨hcur, -⟩ := List.getElem?_eq_some_iff.mp hget
    exact (leaf_iff (List.getElem?_set_self hcur)).mpr hempty
  value_eq := h.value_eq
  find_eq p := by
    -- the child comes later in the `Vec`, so the recursion left this node alone
    have hedge' : edge nodes' cur bit = some child := by rw [h.edge_eq hlt, hedge]
    rw [edge_setChild hget, link_null, valueOf_setChild hget, find_unlink hedge' (h.leaf rfl),
      h.find_eq]

/-- `remove_recursive` takes the value at the end of the path and unlinks what it
    empties. -/
theorem RemoveRun.removed (h : RemoveRun nodes cur rest nodes' value empty)
    (hf : Forest (edge nodes)) (hpath : walk (edge nodes) 0 path = some cur) :
    Removed nodes nodes' cur (path ++ rest) value empty := by
  induction h generalizing path with
  | clear hget =>
      rw [List.append_nil]
      exact .clear hget hf hpath
  | absent _ hfree => exact .absent hf hpath hfree _
  | keep hedge _ hget ih =>
      rw [List.append_cons]
      have hrest := ih (walk_snoc hpath hedge)
      exact hrest.keep (hf.lt _ _ _ hedge) hget
  | unlink hedge _ hget ih =>
      rw [List.append_cons]
      have hrest := ih (walk_snoc hpath hedge)
      exact hrest.unlink (hf.lt _ _ _ hedge) hedge hget

end Runs

/-! ## The table -/

namespace ArenaTable

variable {A V : Type} [IpAddress A]

/-- `t` is an arena whose indices have not run out, and holds `m`. -/
structure Represents (t : ArenaTable A V) (m : Fib (IpAddress.bits A) V) : Prop where
  inBounds : InBounds t.nodes
  forest : Forest (edge t.nodes)
  find_eq : ∀ n : Network (IpAddress.bits A), find (edge t.nodes) (valueOf t.nodes) n.bitPath = m n

variable {t : ArenaTable A V} {m : Fib (IpAddress.bits A) V}

theorem represents_new : Represents (new : ArenaTable A V) (fun _ => none) := by
  have hno : ∀ i bit j, edge (new : ArenaTable A V).nodes i bit ≠ some j := by
    intro i bit j h
    rw [new, edge_new] at h
    cases h
  refine ⟨⟨Nat.one_pos, ?_⟩, ⟨?_, ?_⟩, ?_⟩
  · exact fun i bit j h => absurd h (hno i bit j)
  · exact fun i bit j h => absurd h (hno i bit j)
  · exact fun i bit i' bit' j h => absurd h (hno i bit j)
  · intro n
    rw [find, new]
    cases n.bitPath with
    | nil => rfl
    | cons bit path =>
        rw [walk, edge_new]
        rfl

/-- The loops start at depth 0 and stay within an address. -/
theorem depth_le (pfx : IpPrefix A) : 0 + (network pfx).len ≤ IpAddress.bits A := by
  rw [Nat.zero_add]
  exact (network pfx).len_le

/-- The run of the loop is the whole of `insert`, but for the value at its end. -/
theorem insert_eq {nodes : List (ArenaNode V)} {cur : Nat} {node : ArenaNode V} (pfx : IpPrefix A)
    (v : V) (h : InsertRun t.nodes 0 (network pfx).bitPath nodes cur)
    (hget : nodes[cur]? = some node) :
    t.insert pfx v = .ok ⟨nodes.set cur { node with value := some v }⟩ := by
  obtain ⟨hcur, -⟩ := List.getElem?_eq_some_iff.mp hget
  rw [ArenaTable.insert]
  refine (congrArg (fun x => x >>= _) (h.loop (bits_le A) (depth_le pfx))).trans ?_
  change (vecGet nodes cur >>= _) = _
  rw [vecGet_ok hget, ok_bind, vecSet_ok hcur]
  rfl

/-- `insert` returns. -/
theorem insert_run (hb : InBounds t.nodes) (pfx : IpPrefix A) (v : V) :
    ∃ nodes cur node, InsertRun t.nodes 0 (network pfx).bitPath nodes cur
      ∧ nodes[cur]? = some node
      ∧ t.insert pfx v = .ok ⟨nodes.set cur { node with value := some v }⟩ := by
  obtain ⟨nodes, cur, hrun⟩ := InsertRun.exists_of_inBounds hb hb.nonempty (network pfx).bitPath
  have hget := List.getElem?_eq_getElem (hrun.inBounds hb hb.nonempty).2
  exact ⟨nodes, cur, _, hrun, hget, insert_eq pfx v hrun hget⟩

theorem insert_ok (hb : InBounds t.nodes) (pfx : IpPrefix A) (v : V) :
    ∃ t', t.insert pfx v = .ok t' ∧ InBounds t'.nodes ∧ t.nodes.length ≤ t'.nodes.length
      ∧ (Represents t m → t'.nodes.length ≤ NULL →
          Represents t' (Function.update m (network pfx) (some v))) := by
  obtain ⟨nodes, cur, node, hrun, hget, hinsert⟩ := insert_run hb pfx v
  have hb' := (hrun.inBounds hb hb.nonempty).1
  refine ⟨_, hinsert, hb'.setValue hget _, ?_, ?_⟩
  · rw [List.length_set]
    exact hrun.length_le
  · intro h hgood
    rw [List.length_set] at hgood
    have hext := hrun.extended hb hgood h.forest (walk_nil 0)
    refine ⟨hb'.setValue hget _, ?_, ?_⟩
    · rw [edge_setValue hget]
      exact hext.forest
    · intro n
      have hn := hext.forest.find_update (valueOf nodes) hext.walk_eq (some v) n.bitPath
      rw [edge_setValue hget, valueOf_setValue hget, hn, hext.find_eq, h.find_eq,
        Function.update_apply]
      simp only [List.nil_append, Network.bitPath_inj]

theorem remove_eq {nodes : List (ArenaNode V)} {value : Option V} {empty : Bool} (pfx : IpPrefix A)
    (h : RemoveRun t.nodes 0 (network pfx).bitPath nodes value empty) :
    t.remove pfx = .ok (⟨nodes⟩, value) := by
  exact congrArg (fun x => x >>= _) (h.loop (bits_le A) (depth_le pfx))

/-- `remove` returns. -/
theorem remove_run (hb : InBounds t.nodes) (pfx : IpPrefix A) :
    ∃ nodes value empty, RemoveRun t.nodes 0 (network pfx).bitPath nodes value empty
      ∧ t.remove pfx = .ok (⟨nodes⟩, value) := by
  obtain ⟨nodes, value, empty, hrun⟩ :=
    RemoveRun.exists_of_inBounds hb hb.nonempty (network pfx).bitPath
  exact ⟨nodes, value, empty, hrun, remove_eq pfx hrun⟩

theorem remove_ok (hb : InBounds t.nodes) (pfx : IpPrefix A) :
    ∃ t' value, t.remove pfx = .ok (t', value) ∧ InBounds t'.nodes
      ∧ t'.nodes.length = t.nodes.length
      ∧ (Represents t m → value = m (network pfx)
          ∧ Represents t' (Function.update m (network pfx) none)) := by
  obtain ⟨nodes, value, empty, hrun, hremove⟩ := remove_run hb pfx
  refine ⟨_, value, hremove, hrun.inBounds hb, hrun.length_eq, ?_⟩
  intro h
  have hrem := hrun.removed h.forest (walk_nil 0)
  rw [List.nil_append] at hrem
  refine ⟨by rw [hrem.value_eq, h.find_eq], hrun.inBounds hb, hrem.forest, ?_⟩
  intro n
  rw [hrem.find_eq, h.find_eq, Function.update_apply]
  simp only [Network.bitPath_inj]

theorem contains_eq (hb : InBounds t.nodes) (pfx : IpPrefix A) :
    t.contains pfx = .ok (find (edge t.nodes) (valueOf t.nodes) (network pfx).bitPath).isSome := by
  exact containsLoop_ok (network pfx).addr hb hb.nonempty (bits_le A) (depth_le pfx)

theorem contains_ok (hb : InBounds t.nodes) (pfx : IpPrefix A) :
    ∃ flag, t.contains pfx = .ok flag ∧ (Represents t m → flag = (m (network pfx)).isSome) := by
  refine ⟨_, contains_eq hb pfx, ?_⟩
  intro h
  rw [h.find_eq]

theorem longestMatch_ok (hb : InBounds t.nodes) (addr : A) :
    ∃ found, t.longestMatch addr = .ok found
      ∧ (Represents t m → ∀ v, found = some v ↔
          ∃ n, m.IsLongest (IpAddress.toU128 addr) n v) := by
  have ha := IpAddress.toU128_lt addr
  have hpos := hb.nonempty
  have hget := List.getElem?_eq_getElem hpos
  have hrun := matchLoop_ok (IpAddress.toU128 addr) hb hb.nonempty (bits_le A)
    (Nat.zero_add _).le t.nodes[0].value
  refine ⟨_, (congrArg (fun x => x >>= _) (vecGet_ok hget)).trans hrun, ?_⟩
  intro h v
  have hvalue : ∀ len, len < IpAddress.bits A + 1 →
      valueOfBits t.nodes (IpAddress.bits A) (IpAddress.toU128 addr).toNat 0 0 len
        = Fib.atLen (bits_le A) m (IpAddress.toU128 addr) ha len := by
    intro len hlen
    rw [Fib.atLen_of_le _ _ (Nat.le_of_lt_succ hlen), ← h.find_eq, Network.bitPath_ofAddr]
    rfl
  have hroot : t.nodes[0].value
      = valueOfBits t.nodes (IpAddress.bits A) (IpAddress.toU128 addr).toNat 0 0 0 :=
    (valueOf_of_get hget).symm
  rw [hroot, ← LastSome.map_snd_lastSome, LastSome.lastSome_congr hvalue, ← Fib.longest,
    Option.map_eq_some_iff]
  refine ⟨?_, ?_⟩
  · rintro ⟨⟨len, w⟩, hfound, rfl⟩
    obtain ⟨n, -, hn⟩ := (Fib.longest_eq_some (bits_le A) ha).mp hfound
    exact ⟨n, hn⟩
  · rintro ⟨n, hn⟩
    exact ⟨(n.len, v), (Fib.longest_eq_some (bits_le A) ha).mpr ⟨n, rfl, hn⟩, rfl⟩

end ArenaTable
end Routemap
