/-
  Routemap.Treebitmap.Canonical

  The tree depends on the live prefixes alone.  A node exists exactly where a live
  prefix needs it, two histories with the same live map end in the same table, an
  insert and a remove undo each other, and a table collected from its own entries,
  in any order, is the table again.
-/
import Routemap.Treebitmap.Queries

namespace Routemap

open History TbNode

/-! ## Paths and nodes -/

section Nodes

variable {V : Type} {h : Nat} {n : TbNode V}

/-- The node at the end of a path is well formed and pruned, and not empty unless
    it is the root. -/
theorem TbNode.Shape.nodeAt (hs : Shape h n) (ht : Tight h n) {path : List Nat} {c : TbNode V}
    (hc : n.nodeAt path = some c) :
    Shape (h - path.length) c ∧ Tight (h - path.length) c
      ∧ (path ≠ [] → c.isEmpty = false) := by
  induction path generalizing h n with
  | nil =>
      cases hc
      exact ⟨hs, ht, fun hne => absurd rfl hne⟩
  | cons nib path ih =>
      obtain ⟨d, hd, hc⟩ := Option.bind_eq_some_iff.mp hc
      obtain ⟨-, hpos⟩ := hs.nodeOk.childAt_lt hd
      cases h with
      | zero => omega
      | succ h =>
          -- the node is the child itself, or further down
          obtain ⟨hshape, htight, hne⟩ := ih (hs.child hd) (ht.child hd).2 hc
          rw [List.length_cons, Nat.add_sub_add_right]
          refine ⟨hshape, htight, fun _ => ?_⟩
          cases path with
          | nil =>
              cases hc
              exact (ht.child hd).1
          | cons nib' path => exact hne (by simp)

/-- A node below the root is there exactly when some slot in or below it is set. -/
theorem TbNode.Shape.nodeAt_isSome_iff (hs : Shape h n) (ht : Tight h n) {path : List Nat}
    (hpath : path ≠ []) :
    (n.nodeAt path).isSome = true ↔ ∃ rest q v, n.lookup (path ++ rest) q = some v := by
  refine ⟨?_, ?_⟩
  · intro hsome
    obtain ⟨c, hc⟩ := Option.isSome_iff_exists.mp hsome
    obtain ⟨hshape, htight, hne⟩ := hs.nodeAt ht hc
    obtain ⟨rest, q, v, hv⟩ := hshape.exists_lookup htight (hne hpath)
    refine ⟨rest, q, v, ?_⟩
    rwa [lookup_eq_nodeAt, nodeAt_append, hc, Option.bind_some, ← lookup_eq_nodeAt]
  · rintro ⟨rest, q, v, hv⟩
    rw [lookup_eq_nodeAt, nodeAt_append] at hv
    cases hc : n.nodeAt path with
    | none =>
        rw [hc] at hv
        cases hv
    | some c => rfl

end Nodes

variable {A V : Type} [IpAddress A]

/-- The first `k` nibbles of a network. -/
def Network.nibbles {bits : Nat} (n : Network bits) (k : Nat) : List Nat :=
  pathFrom bits n.addr.toNat 0 k

/-- The path of a network starts with its nibbles. -/
theorem Network.path_eq_append {bits : Nat} (n : Network bits) {k : Nat} (hk : 4 * k ≤ n.len) :
    ∃ rest, n.path = n.nibbles k ++ rest := by
  refine ⟨pathFrom bits n.addr.toNat (0 + k) (n.len / 4 - k), ?_⟩
  have hsplit : k + (n.len / 4 - k) = n.len / 4 := by omega
  rw [Network.path, Network.nibbles, ← pathFrom_append, hsplit]

theorem Network.nibbles_of_path {bits : Nat} {n : Network bits} {path rest : List Nat}
    (h : n.path = path ++ rest) : 4 * path.length ≤ n.len ∧ n.nibbles path.length = path := by
  have hlen := congrArg List.length h
  rw [Network.length_path, List.length_append] at hlen
  have hle : 4 * path.length ≤ n.len := by omega
  refine ⟨hle, ?_⟩
  obtain ⟨rest', h'⟩ := n.path_eq_append hle
  rw [h] at h'
  exact (List.append_inj_left h' (by simp [Network.nibbles])).symm

/-- **Canonical shape.**  After every run, a node other than the root exists at a
    path of `k` nibbles exactly when a live prefix of length at least `4 k` starts
    with them; so two runs, however long, that leave the same entries live, prefix and
    value, end in the same tree with the same counter. -/
theorem canonical_shape (calls : List (Call A V)) :
    ∃ t replies, runCalls calls = .ok (t, replies)
      ∧ (∀ path, path ≠ [] →
          ((t.root.nodeAt path).isSome = true ↔
            ∃ n v, Live (writes calls) n v ∧ 4 * path.length ≤ n.len
              ∧ n.nibbles path.length = path))
      ∧ ∀ (calls' : List (Call A V)) t' replies', runCalls calls' = .ok (t', replies') →
          (∀ n v, Live (writes calls) n v ↔ Live (writes calls') n v) → t = t' := by
  obtain ⟨t, replies, m, hrun, h, hlive, -⟩ := run_live calls
  refine ⟨t, replies, hrun, ?_, ?_⟩
  · intro path hpath
    rw [h.shape.nodeAt_isSome_iff h.tight hpath]
    simp only [hlive]
    refine ⟨?_, ?_⟩
    · rintro ⟨rest, q, v, hv⟩
      have s := h.shape.slot_of_lookup hv
      rw [h.lookup_slot s] at hv
      obtain ⟨hle, hnib⟩ :=
        Network.nibbles_of_path (Network.ofSlot_path (bits_le A) (stride_dvd A) s)
      exact ⟨_, v, hv, hle, hnib⟩
    · rintro ⟨n, v, hv, hle, hnib⟩
      obtain ⟨rest, hrest⟩ := n.path_eq_append hle
      rw [hnib] at hrest
      exact ⟨rest, n.pos, v, by rw [← hrest, h.lookup_eq, hv]⟩
  · intro calls' t' replies' hrun' hsame
    obtain ⟨t'', replies'', m', hrun'', h', hlive', -⟩ := run_live calls'
    rw [hrun'] at hrun''
    cases hrun''
    have hm : m = m' := by
      funext n
      exact Option.ext fun v => by rw [← hlive, hsame, hlive']
    subst hm
    exact h.unique h'

/-! ## Undoing a write -/

/-- **Insert and remove undo each other.**  After every run, inserting a prefix that
    is not in the table and removing it returns the value and leaves the very same
    tree and counter, and so does removing one that is and inserting it again. -/
theorem insert_remove_inverse (calls : List (Call A V)) (pfx : IpPrefix A) (v : V) :
    ∃ t replies, runCalls calls = .ok (t, replies)
      ∧ (t.get pfx = .ok none →
          ∃ t', t.insert pfx v = .ok t' ∧ t'.remove pfx = .ok (t, some v))
      ∧ (t.get pfx = .ok (some v) →
          ∃ t', t.remove pfx = .ok (t', some v) ∧ t'.insert pfx v = .ok t) := by
  obtain ⟨t, replies, m, hrun, h, -, -⟩ := run_live calls
  refine ⟨t, replies, hrun, ?_, ?_⟩
  · intro habsent
    have hm : m (network pfx) = none := Except.ok.inj ((h.get pfx).symm.trans habsent)
    obtain ⟨t₁, hinsert, h₁⟩ := h.insert pfx v
    obtain ⟨t₂, hremove, h₂⟩ := h₁.remove pfx
    -- the map is the old one again, and a map has one table
    rw [Function.update_idem, ← hm, Function.update_eq_self] at h₂
    rw [Function.update_self, h₂.unique h] at hremove
    exact ⟨t₁, hinsert, hremove⟩
  · intro hpresent
    have hm : m (network pfx) = some v := Except.ok.inj ((h.get pfx).symm.trans hpresent)
    obtain ⟨t₁, hremove, h₁⟩ := h.remove pfx
    obtain ⟨t₂, hinsert, h₂⟩ := h₁.insert pfx v
    rw [Function.update_idem, ← hm, Function.update_eq_self] at h₂
    rw [h₂.unique h] at hinsert
    rw [hm] at hremove
    exact ⟨t₁, hremove, hinsert⟩

/-! ## Rebuilding -/

/-- The value of the last pair with the network `n`. -/
def LastOf (pairs : List (IpPrefix A × V)) (n : Network (IpAddress.bits A)) (v : V) : Prop :=
  ∃ before after pfx, pairs = before ++ (pfx, v) :: after ∧ network pfx = n
    ∧ ∀ e ∈ after, network e.1 ≠ n

/-- A table collected from pairs has the last value of each network. -/
theorem represents_fromIter_last (pairs : List (IpPrefix A × V)) :
    ∃ t m, RouteMap.fromIter pairs = .ok t ∧ RouteMap.Represents t m
      ∧ ∀ n v, m n = some v ↔ LastOf pairs n v := by
  obtain ⟨t, hrun, h⟩ := RouteMap.represents_fromIter pairs
  refine ⟨t, _, hrun, h, ?_⟩
  intro n v
  rw [← live_iff]
  refine (live_puts (fun e : IpPrefix A × V => network e.1) Prod.snd).trans ?_
  refine ⟨?_, ?_⟩
  · rintro ⟨before, after, ⟨pfx, w⟩, rfl, hnet, rfl, hafter⟩
    exact ⟨before, after, pfx, rfl, hnet, hafter⟩
  · rintro ⟨before, after, pfx, rfl, hnet, hafter⟩
    exact ⟨before, after, (pfx, v), rfl, hnet, rfl, hafter⟩

/-- Of pairs with distinct masked prefixes, every one is the last of its network. -/
theorem lastOf_iff_of_listing {m : Fib (IpAddress.bits A) V} {es es' : List (IpPrefix A × V)}
    (hlist : Listing m es) (hperm : es'.Perm es) (n : Network (IpAddress.bits A)) (v : V) :
    LastOf es' n v ↔ m n = some v := by
  have hmem : ∀ {e : IpPrefix A × V}, e ∈ es' →
      IpAddress.masked e.1 = e.1 ∧ m (network e.1) = some e.2 :=
    fun he => (hlist.mem_iff _ _).mp (hperm.mem_iff.mp he)
  refine ⟨?_, ?_⟩
  · rintro ⟨before, after, pfx, rfl, rfl, -⟩
    exact (hmem (e := (pfx, v)) (by simp)).2
  · intro hv
    have hin : (ofNetwork n, v) ∈ es' := by
      rw [hperm.mem_iff, hlist.mem_iff, network_ofNetwork]
      exact ⟨masked_ofNetwork n, hv⟩
    obtain ⟨before, after, heq⟩ := List.append_of_mem hin
    refine ⟨before, after, ofNetwork n, heq, network_ofNetwork n, ?_⟩
    -- another pair of this network would repeat the prefix
    intro e he hnet
    have hpfx : e.1 = ofNetwork n := by
      rw [← hnet]
      exact ((masked_iff e.1).mp (hmem (by simp [heq, he])).1).symm
    have hnodup := (hperm.map Prod.fst).nodup_iff.mpr hlist.nodup
    rw [heq, List.map_append, List.map_cons, List.nodup_append, List.nodup_cons] at hnodup
    have hdup : e.1 ∈ after.map Prod.fst := List.mem_map_of_mem he
    rw [hpfx] at hdup
    exact hnodup.2.1.1 hdup

/-- The entries of a map, put in any order, make the map. -/
theorem Listing.replay_eq {m : Fib (IpAddress.bits A) V} {es es' : List (IpPrefix A × V)}
    (hlist : Listing m es) (hperm : es'.Perm es) :
    replay (es'.map fun (pfx, v) => .put (network pfx) v) = m := by
  obtain ⟨t, hrun, h⟩ := RouteMap.represents_fromIter es'
  obtain ⟨t', m', hrun', h', hlast⟩ := represents_fromIter_last es'
  cases hrun.symm.trans hrun'
  -- both are the map of one table
  funext n
  rw [← h.lookup_eq, h'.lookup_eq]
  exact Option.ext fun v => by rw [hlast, lastOf_iff_of_listing hlist hperm]

/-- **Rebuild round trip.**  After every run, the entries of the table in any order
    collect to the same table; and a table collected from any pairs, with repeats
    and host bits, iterates to one entry for each masked prefix, with the value of
    its last occurrence. -/
theorem rebuild_round_trip (calls : List (Call A V)) (pairs : List (IpPrefix A × V)) :
    (∃ t replies entries, runCalls calls = .ok (t, replies)
      ∧ t.iter.collect = .ok entries
      ∧ ∀ entries' : List (IpPrefix A × V), entries'.Perm entries →
          RouteMap.fromIter entries' = .ok t)
    ∧ ∃ t entries, RouteMap.fromIter pairs = .ok t
      ∧ t.iter.collect = .ok entries
      ∧ (entries.map Prod.fst).Nodup
      ∧ ∀ pfx v, (pfx, v) ∈ entries ↔
          IpAddress.masked pfx = pfx ∧ LastOf pairs (network pfx) v := by
  refine ⟨?_, ?_⟩
  · obtain ⟨t, replies, m, hrun, h, -, -⟩ := run_live calls
    obtain ⟨es, hcollect, hlist, -, -⟩ := h.collect
    refine ⟨t, replies, es, hrun, hcollect, ?_⟩
    intro es' hperm
    obtain ⟨t', m', hbuild, h', hlast⟩ := represents_fromIter_last es'
    have hm : m' = m := by
      funext n
      exact Option.ext fun v => by rw [hlast, lastOf_iff_of_listing hlist hperm]
    subst hm
    rw [hbuild, h'.unique h]
  · obtain ⟨t, m, hbuild, h, hlast⟩ := represents_fromIter_last pairs
    obtain ⟨es, hcollect, hlist, -, -⟩ := h.collect
    refine ⟨t, es, hbuild, hcollect, hlist.nodup, ?_⟩
    intro pfx v
    rw [hlist.mem_iff, hlast]

end Routemap
