/-
  Routemap.Treebitmap.Unpruned

  Why `remove` prunes.  No call sees an empty node: a well formed table that has some
  replies on every run as the table collected from its own entries does, and of all
  well formed tables of a map that one is the only smallest (`rebuild_compacts`).  A
  `remove` that never prunes gets every run the same replies, from a tree that has the
  nodes of the run without its removes (`pruning_unseen`).
-/
import Routemap.Treebitmap.Commute
import Routemap.Treebitmap.Nodes
import Routemap.Treebitmap.Plain
import Routemap.Treebitmap.Turns

namespace Routemap

open History TbNode Prefixes RouteMap

/-! ## Trees without a node to spare -/

section Tight

variable {V : Type} {h : Nat} {n : TbNode V}

/-- A tree is pruned when something is stored in or below each of its nodes. -/
theorem TbNode.Shape.tight_of_nodeAt (hs : Shape h n)
    (hstored : ∀ path, path ≠ [] → (n.nodeAt path).isSome = true →
      ∃ rest q v, n.lookup (path ++ rest) q = some v) : Tight h n := by
  induction h generalizing n with
  | zero => trivial
  | succ h ih =>
      intro c hmem
      obtain ⟨nib, hc⟩ := hs.nodeOk.exists_childAt hmem
      -- a slot below the child is a slot below its nibble
      have hbelow : ∀ path, (c.nodeAt path).isSome = true →
          ∃ rest q v, c.lookup (path ++ rest) q = some v := by
        intro path hpath
        have hnode : (n.nodeAt (nib :: path)).isSome = true := by
          rwa [TbNode.nodeAt, hc, Option.bind_some]
        obtain ⟨rest, q, v, hv⟩ := hstored (nib :: path) (List.cons_ne_nil _ _) hnode
        rw [List.cons_append, lookup, hc, Option.bind_some] at hv
        exact ⟨rest, q, v, hv⟩
      refine ⟨?_, ih (hs.child hc) fun path _ => hbelow path⟩
      obtain ⟨rest, q, v, hv⟩ := hbelow [] rfl
      by_contra hempty
      rw [Bool.not_eq_false] at hempty
      rw [lookup_of_isEmpty hempty] at hv
      cases hv

end Tight

variable {A V : Type} [IpAddress A]

namespace RouteMap

variable {t t₀ : RouteMap A V} {m : Fib (IpAddress.bits A) V}

/-- Every well formed tree stores a map, and as many values as the map has keys. -/
theorem holds_of_shape (hs : Shape (levels A) t.root) (hcount : t.count = t.root.stored) :
    Holds t fun n => t.root.lookup n.path n.pos := by
  refine ⟨hs, fun n => rfl, ?_⟩
  -- the iterator counts both, whatever the counter of the table says
  have h : Holds (RouteMap.mk t.root
      (support fun n : Network (IpAddress.bits A) => t.root.lookup n.path n.pos).ncard)
      fun n => t.root.lookup n.path n.pos := ⟨hs, fun n => rfl, rfl⟩
  obtain ⟨es, -, hlist, hlen, -⟩ := h.collect
  rw [hcount, hs.packed.stored_eq, ← hlist.length_eq]
  exact hlen.symm

/-- A tree has the nodes that its networks need, whatever else it has. -/
theorem Holds.nodes_subset (h : Holds t m) :
    nodes (Network.path '' support m) ⊆ {path | (t.root.nodeAt path).isSome = true} := by
  rintro path (rfl | ⟨_, ⟨n, hn, rfl⟩, rest, hrest⟩)
  · rfl
  · obtain ⟨v, hv⟩ := Option.isSome_iff_exists.mp hn
    rw [← h.lookup_eq, ← hrest, lookup_eq_nodeAt, nodeAt_append] at hv
    rw [Set.mem_ofPred_eq]
    cases hc : t.root.nodeAt path with
    | none =>
        rw [hc] at hv
        cases hv
    | some c => rfl

theorem finite_nodeAt (hs : Shape (levels A) t.root) :
    {path | (t.root.nodeAt path).isSome = true}.Finite := by
  refine (t.root.paths (levels A)).toFinset.finite_toSet.subset ?_
  intro path hpath
  rw [Finset.mem_coe, List.mem_toFinset]
  exact hs.mem_paths.mpr hpath

/-- **The pruned tree is the smallest** of the trees that hold its map. -/
theorem Holds.size_le (h : Holds t m) (h₀ : Represents t₀ m) : t₀.root.size ≤ t.root.size := by
  rw [h₀.size_eq, h.shape.size_eq_ncard]
  exact Set.ncard_le_ncard h.nodes_subset (finite_nodeAt h.shape)

/-- A tree as small as the pruned one is the pruned one. -/
theorem Holds.eq_of_size (h : Holds t m) (h₀ : Represents t₀ m)
    (hsize : t.root.size = t₀.root.size) : t = t₀ := by
  rw [h₀.size_eq, h.shape.size_eq_ncard] at hsize
  have hnodes : nodes (Network.path '' support m)
      = {path | (t.root.nodeAt path).isSome = true} :=
    Set.eq_of_subset_of_ncard_le h.nodes_subset hsize.le (finite_nodeAt h.shape)
  have htight : Tight (levels A) t.root := by
    refine h.shape.tight_of_nodeAt ?_
    intro path hne hpath
    have hmem : path ∈ nodes (Network.path '' support m) := by
      rw [hnodes]
      exact hpath
    obtain ⟨_, ⟨n, hn, rfl⟩, rest, hrest⟩ := (mem_nodes_of_ne hne).mp hmem
    obtain ⟨v, hv⟩ := Option.isSome_iff_exists.mp hn
    exact ⟨rest, n.pos, v, by rw [hrest, h.lookup_eq, hv]⟩
  exact (h.represents htight).unique h₀

/-- Two tables of a map, pruned or not, cannot be told apart. -/
theorem Holds.same_replies (h : Holds t m) (h₀ : Holds t₀ m) (calls : List (Call A V)) :
    ∃ t' t₀' replies, Run.run RouteMap.exec t calls = .ok (t', replies)
      ∧ Run.run RouteMap.exec t₀ calls = .ok (t₀', replies) := by
  obtain ⟨t', t₀', replies, hrun, hrun₀, -, -⟩ :=
    Run.run_agree (fun _ _ call h => h.exec call) (fun _ _ call h => h.exec call)
      Call.answer_unique h h₀ calls
  exact ⟨t', t₀', replies, hrun, hrun₀⟩

end RouteMap

/-- **Empty nodes cannot be seen.**  A well formed table with a right counter, whatever empty
    nodes it has, collects to a table on which every list of calls returns with the same
    replies.  That table has no more nodes, and as many only if it is the same. -/
theorem rebuild_compacts (t : RouteMap A V) (hs : Shape (levels A) t.root)
    (hcount : t.count = t.root.stored) :
    ∃ entries t₀, t.iter.collect = .ok entries ∧ RouteMap.fromIter entries = .ok t₀
      ∧ (∀ calls : List (Call A V), ∃ t' t₀' replies,
          Run.run RouteMap.exec t calls = .ok (t', replies)
          ∧ Run.run RouteMap.exec t₀ calls = .ok (t₀', replies))
      ∧ t₀.root.size ≤ t.root.size
      ∧ (t.root.size = t₀.root.size → t = t₀) := by
  have h := RouteMap.holds_of_shape hs hcount
  obtain ⟨entries, hcollect, hlist, -, -⟩ := h.collect
  obtain ⟨t₀, hbuild, h₀⟩ := RouteMap.represents_fromIter entries
  rw [hlist.replay_eq (List.Perm.refl _)] at h₀
  exact ⟨entries, t₀, hcollect, hbuild, h.same_replies h₀.holds, h.size_le h₀, h.eq_of_size h₀⟩

/-- The table with an empty leaf and the one collected from its entries. -/
theorem rebuild_compacts_emptyChild :
    ∃ entries t₀, emptyChildTable.iter.collect = .ok entries
      ∧ RouteMap.fromIter entries = .ok t₀
      ∧ t₀.longestMatch 0#32 = emptyChildTable.longestMatch 0#32
      ∧ t₀.root.size ≤ 2 := by
  obtain ⟨entries, t₀, hcollect, hbuild, hruns, hsize, -⟩ :=
    rebuild_compacts emptyChildTable shape_emptyChildTable rfl
  refine ⟨entries, t₀, hcollect, hbuild, ?_, hsize⟩
  obtain ⟨t', t₀', replies, hrun, hrun₀⟩ := hruns [.longestMatch 0#32]
  obtain ⟨_, _, _, hexec, hnil, rfl⟩ := Run.run_cons_inv hrun
  obtain ⟨_, _, _, hexec₀, hnil₀, hreplies⟩ := Run.run_cons_inv hrun₀
  obtain ⟨found, hfound, heq⟩ := bind_eq_ok.mp hexec
  obtain ⟨found₀, hfound₀, heq₀⟩ := bind_eq_ok.mp hexec₀
  cases heq
  cases heq₀
  obtain ⟨hreply, -⟩ := List.cons.inj hreplies
  rw [hfound, hfound₀, Reply.value.inj hreply]

/-! ## Removal without pruning -/

section Keep

/-- `removeAt` without the prune: a child goes back where it was, empty or not. -/
def removeKeepAt {V : Type} :
    TbNode V → U128 → Nat → Nat → Nat → Nat → M (TbNode V × Option V)
  | node, addr, addrBits, hop, 0, relLen => do
    -- the node itself is for its caller to prune
    let (node, value, _) ← removeAt node addr addrBits hop 0 relLen
    pure (node, value)
  | node, addr, addrBits, hop, hopsLeft + 1, relLen => do
    let nib ← nibble addr addrBits hop
    if !(← testBit node.external nib) then pure (node, none)
    else
      let childIdx ← rank node.external nib
      let child ← vecGet node.children childIdx
      let hop ← checkedAdd hop 1
      let (child, value) ← removeKeepAt child addr addrBits hop hopsLeft relLen
      let children ← vecSet node.children childIdx child
      pure ({ node with children }, value)

/-- `remove` without the prune. -/
def RouteMap.removeKeep (t : RouteMap A V) (pfx : IpPrefix A) :
    M (RouteMap A V × Option V) := do
  let pfx := IpAddress.masked pfx
  let addr := IpAddress.toU128 (IpAddress.ip pfx)
  let len := IpAddress.mask pfx
  let (root, value) ←
    removeKeepAt t.root addr (IpAddress.bits A) 0 (len / STRIDE) (len % STRIDE)
  let count ← if value.isSome then checkedSub t.count 1 else pure t.count
  pure ({ root, count }, value)

/-- Take a call on a table that never prunes. -/
def RouteMap.execKeep (t : RouteMap A V) : Call A V → M (RouteMap A V × Reply A V)
  | .remove pfx => do
    let (t, removed) ← t.removeKeep pfx
    pure (t, .value removed)
  | call => t.exec call

variable {h hop k rel bits : Nat} {n : TbNode V}

namespace TbNode

/-- The tree with slot `(path, q)` cleared, and all its nodes kept. -/
def clearPath : TbNode V → List Nat → Nat → TbNode V
  | n, [], q => n.removePath [] q
  | n, nib :: path, q =>
    match n.childAt nib with
    | none => n
    | some c => n.setChild nib (c.clearPath path q)

theorem Shape.clearPath (hs : Shape h n) (path : List Nat) (q : Nat) :
    Shape h (n.clearPath path q) := by
  induction path generalizing h n with
  | nil => exact hs.removePath [] q
  | cons nib path ih =>
      rw [TbNode.clearPath]
      cases hc : n.childAt nib with
      | none => exact hs
      | some c =>
          obtain ⟨hnib, hpos⟩ := hs.nodeOk.childAt_lt hc
          cases h with
          | zero => omega  -- a node at the bottom has no child
          | succ h => exact hs.setChild hnib (ih (hs.child hc))

theorem Packed.lookup_clearPath (hp : Packed n) (path : List Nat) (q : Nat)
    (path' : List Nat) (q' : Nat) :
    (n.clearPath path q).lookup path' q'
      = if path' = path ∧ q' = q then none else n.lookup path' q' := by
  induction path generalizing n path' q' with
  | nil => exact hp.lookup_removePath [] q path' q'
  | cons nib path ih =>
      rw [TbNode.clearPath]
      cases hc : n.childAt nib with
      | none =>
          -- there is nothing below a child that is not there
          dsimp only
          split
          case isTrue heq =>
            rw [heq.1, lookup, hc]
            rfl
          case isFalse => rfl
      | some c =>
          have hnib := hp.fit.children_fit.bound nib (external_bit hc)
          have hchild := hp.fit.childAt_setChild hnib (c.clearPath path q)
          refine lookup_of_child (valueAt_setChild n nib _) ?_ ?_ path' q'
          · intro r hr
            rw [hchild, if_neg hr]
          · intro path' q'
            rw [lookup, hchild, if_pos rfl, Option.bind_some, ih (hp.child hc), lookup, hc,
              Option.bind_some]

end TbNode

/-- `removeKeepAt` clears the slot the address leads to and returns what was in it. -/
theorem removeKeepAt_eq (addr : U128) (hp : Packed n) (d : Descent bits hop h k rel) :
    removeKeepAt n addr bits hop k rel
      = .ok (n.clearPath (pathFrom bits addr.toNat hop k) (posAt bits addr.toNat (hop + k) rel),
          n.lookup (pathFrom bits addr.toNat hop k)
            (posAt bits addr.toNat (hop + k) rel)) := by
  induction k generalizing hop h n with
  | zero =>
      rw [removeKeepAt, removeAt_eq addr hp d]
      rfl
  | succ k ih =>
      cases h with
      | zero => exact absurd d.full (by simp)
      | succ h =>
          have hnib := nib_lt bits addr.toNat hop
          rw [removeKeepAt, d.nibble_ok, ok_bind, hp.fit.testBit_external (by omega), ok_bind,
            pathFrom_succ, lookup, clearPath, Descent.hops_eq]
          cases hc : n.childAt (nib bits addr.toNat hop) with
          | none => rfl
          | some c =>
              have hlt := hp.fit.children_fit.rank_lt (external_bit hc)
              simp only [Option.isSome_some, Bool.not_true, Bool.false_eq_true, ↓reduceIte,
                rank_ok n.external (show nib bits addr.toNat hop < 32 by omega), ok_bind,
                vecGet_ok (childAt_get hc), d.hop_ok, ih (hp.child hc) d.next, vecSet_ok hlt,
                pure_eq_ok, Option.bind_some, setChild_of_some hc]

variable {t : RouteMap A V} {m : Fib (IpAddress.bits A) V}

theorem RouteMap.removeKeep_eq (hp : Packed t.root) (pfx : IpPrefix A) :
    t.removeKeep pfx = (do
      let value := t.root.lookup (network pfx).path (network pfx).pos
      let count ← if value.isSome then checkedSub t.count 1 else pure t.count
      pure (⟨t.root.clearPath (network pfx).path (network pfx).pos, count⟩, value)) := by
  have hrun := removeKeepAt_eq (network pfx).addr hp (network pfx).descent
  rw [Nat.zero_add] at hrun
  exact congrArg (fun x => x >>= _) hrun

theorem RouteMap.Holds.removeKeep (h : Holds t m) (pfx : IpPrefix A) :
    ∃ t', t.removeKeep pfx = .ok (t', m (network pfx))
      ∧ Holds t' (Function.update m (network pfx) none) := by
  rw [removeKeep_eq h.shape.packed, h.lookup_eq]
  exact h.delete (network pfx) (h.shape.clearPath _ _)
    (h.shape.packed.lookup_clearPath (network pfx).path (network pfx).pos)

theorem RouteMap.Holds.execKeep (h : Holds t m) (call : Call A V) :
    ∃ t' reply, t.execKeep call = .ok (t', reply) ∧ Holds t' (call.apply m)
      ∧ call.Answer m reply := by
  have hexec := h.exec call
  cases call with
  | remove pfx =>
      obtain ⟨t', hrun, h'⟩ := h.removeKeep pfx
      exact ⟨t', .value (m (network pfx)), congrArg (fun x => x >>= _) hrun, h', rfl⟩
  | _ => exact hexec

/-! ### The nodes it keeps -/

namespace TbNode

/-- Two trees with nodes at the same paths, whatever these hold. -/
def SameNodes (n n' : TbNode V) : Prop :=
  ∀ path, (n.nodeAt path).isSome = true ↔ (n'.nodeAt path).isSome = true

/-- An insertion makes the nodes on its path. -/
theorem Packed.nodeAt_insertPath {path : List Nat} (hp : Packed n)
    (hpath : ∀ nib ∈ path, nib < 32) (q : Nat) (v : V) (path' : List Nat) :
    ((n.insertPath path q v).nodeAt path').isSome = true
      ↔ (n.nodeAt path').isSome = true ∨ path' <+: path := by
  induction path generalizing n path' with
  | nil =>
      cases path' with
      | nil => simp [TbNode.nodeAt]
      | cons nib' path' => simp [TbNode.insertPath, TbNode.nodeAt, childAt_setValue]
  | cons nib path ih =>
      cases path' with
      | nil => simp [TbNode.nodeAt]
      | cons nib' path' =>
          have hchild := hp.fit.childAt_setChild (hpath nib (by simp))
            (((n.childAt nib).getD new).insertPath path q v) nib'
          rw [TbNode.insertPath, TbNode.nodeAt, hchild, TbNode.nodeAt, List.cons_prefix_cons]
          by_cases hnib : nib' = nib
          · subst hnib
            rw [if_pos rfl, Option.bind_some,
              ih (hp.getD_child nib') fun m hm => hpath m (List.mem_cons_of_mem _ hm)]
            cases n.childAt nib' with
            | some c => simp
            | none =>
                -- a new child has its own node alone, and that is on the path
                cases path' with
                | nil => simp
                | cons nib'' path' => simp [TbNode.nodeAt, childAt_new]
          · rw [if_neg hnib]
            simp [hnib]

/-- Clearing a slot keeps every node. -/
theorem Packed.nodeAt_clearPath (hp : Packed n) (path : List Nat) (q : Nat) :
    SameNodes (n.clearPath path q) n := by
  intro path'
  induction path generalizing n path' with
  | nil =>
      rw [TbNode.clearPath, TbNode.removePath]
      split
      · cases path' with
        | nil => rfl
        | cons nib' path' => rw [TbNode.nodeAt, TbNode.nodeAt, childAt_dropValue]
      · rfl
  | cons nib path ih =>
      rw [TbNode.clearPath]
      cases hc : n.childAt nib with
      | none => rfl
      | some c =>
          have hnib := hp.fit.children_fit.bound nib (external_bit hc)
          cases path' with
          | nil => rfl
          | cons nib' path' =>
              dsimp only
              rw [TbNode.nodeAt, hp.fit.childAt_setChild hnib, TbNode.nodeAt]
              by_cases heq : nib' = nib
              · subst heq
                rw [if_pos rfl, hc, Option.bind_some, Option.bind_some]
                exact ih (hp.child hc) path'
              · rw [if_neg heq]

theorem Shape.size_eq_of_sameNodes {h' : Nat} {n' : TbNode V} (hs : Shape h n)
    (hs' : Shape h' n') (hsame : SameNodes n n') : n.size = n'.size := by
  rw [hs.size_eq_ncard, hs'.size_eq_ncard]
  exact congrArg Set.ncard (Set.ext hsame)

end TbNode

/-- All calls but the removes. -/
def Call.keeps : Call A V → Bool
  | .remove _ => false
  | _ => true

/-- A remove keeps the nodes of the table. -/
theorem RouteMap.Holds.sameNodes_remove (h : Holds t m) {call : Call A V}
    (hcall : call.keeps = false) {t' : RouteMap A V} {reply : Reply A V}
    (hexec : t.execKeep call = .ok (t', reply)) : SameNodes t'.root t.root := by
  cases call with
  | remove pfx =>
      obtain ⟨⟨t₁, gone⟩, hrun, heq⟩ := bind_eq_ok.mp hexec
      cases heq
      rw [root_of_counted ((removeKeep_eq h.shape.packed pfx).symm.trans hrun)]
      exact h.shape.packed.nodeAt_clearPath (network pfx).path (network pfx).pos
  | _ => cases hcall

/-- Any other call keeps two tables at the same nodes, whatever they hold. -/
theorem RouteMap.Holds.sameNodes_exec {m₁ : Fib (IpAddress.bits A) V}
    {t₁ t' t₁' : RouteMap A V} {reply reply₁ : Reply A V} (h : Holds t m) (h₁ : Holds t₁ m₁)
    (hsame : SameNodes t.root t₁.root) {call : Call A V} (hcall : call.keeps = true)
    (hexec : t.execKeep call = .ok (t', reply)) (hexec₁ : t₁.exec call = .ok (t₁', reply₁)) :
    SameNodes t'.root t₁'.root := by
  cases call with
  | insert pfx value =>
      have hpath := (slot_network (network pfx)).nibble_lt_word
      obtain ⟨t₂, hrun, heq⟩ := bind_eq_ok.mp hexec
      cases heq
      obtain ⟨t₃, hrun₁, heq⟩ := bind_eq_ok.mp hexec₁
      cases heq
      rw [insert_eq h.shape.packed] at hrun
      rw [insert_eq h₁.shape.packed] at hrun₁
      cases hrun
      cases hrun₁
      intro path
      rw [h.shape.packed.nodeAt_insertPath hpath, h₁.shape.packed.nodeAt_insertPath hpath,
        hsame path]
  | remove pfx => cases hcall
  | clear =>
      cases hexec
      cases hexec₁
      exact fun path => Iff.rfl
  | fromIter pairs =>
      cases hexec.symm.trans hexec₁
      exact fun path => Iff.rfl
  | _ =>
      rw [eq_of_query hexec, eq_of_query hexec₁]
      exact hsame

/-- **The nodes of a run that keeps them** are those of the run without its removes. -/
theorem RouteMap.Holds.sameNodes_run {m₁ : Fib (IpAddress.bits A) V} {t₁ t' : RouteMap A V}
    {replies : List (Reply A V)} (h : Holds t m) (h₁ : Represents t₁ m₁)
    (hsame : SameNodes t.root t₁.root) {calls : List (Call A V)}
    (hrun : Run.run RouteMap.execKeep t calls = .ok (t', replies)) :
    ∃ t₁' replies₁ m₁', Run.run RouteMap.exec t₁ (calls.filter Call.keeps) = .ok (t₁', replies₁)
      ∧ Represents t₁' m₁' ∧ SameNodes t'.root t₁'.root := by
  induction calls generalizing t t₁ m m₁ replies with
  | nil =>
      cases hrun
      exact ⟨t₁, [], m₁, rfl, h₁, hsame⟩
  | cons call calls ih =>
      obtain ⟨t₂, reply, rest, hexec, htail, rfl⟩ := Run.run_cons_inv hrun
      obtain ⟨t₃, reply₃, hexec₃, h₂, -⟩ := h.execKeep call
      cases hexec.symm.trans hexec₃
      cases hcall : call.keeps with
      | false =>
          rw [List.filter_cons_of_neg (by simp [hcall])]
          have hkept := h.sameNodes_remove hcall hexec
          exact ih h₂ h₁ (fun path => (hkept path).trans (hsame path)) htail
      | true =>
          rw [List.filter_cons_of_pos hcall]
          obtain ⟨t₄, reply₄, hexec₁, h₄, -⟩ := h₁.exec call
          have hsame' := h.sameNodes_exec h₁.holds hsame hcall hexec hexec₁
          obtain ⟨t₁', replies₁, m₁', hrun₁, h'⟩ := ih h₂ h₄ hsame' htail
          exact ⟨t₁', reply₄ :: replies₁, m₁', Run.run_cons hexec₁ hrun₁, h'⟩

/-- **Pruning cannot be seen.**  Every run of calls gets the same replies from a table
    that keeps its empty nodes.  That table never has fewer nodes: it has those of the
    run without its removes. -/
theorem pruning_unseen (calls : List (Call A V)) :
    ∃ t t' t₁ replies replies₁, runCalls calls = .ok (t, replies)
      ∧ Run.run RouteMap.execKeep RouteMap.new calls = .ok (t', replies)
      ∧ runCalls (calls.filter Call.keeps) = .ok (t₁, replies₁)
      ∧ t.count = t'.count
      ∧ SameNodes t'.root t₁.root
      ∧ t.root.size ≤ t'.root.size ∧ t'.root.size = t₁.root.size := by
  obtain ⟨t, t', replies, hrun, hrun', h, h'⟩ :=
    Run.run_agree (R := fun (t : RouteMap A V) m => Represents t m)
      (S := fun (t : RouteMap A V) m => Holds t m) (fun _ _ call h => h.exec call)
      (fun _ _ call h => h.execKeep call) Call.answer_unique represents_new
      represents_new.holds calls
  obtain ⟨t₁, replies₁, m₁, hrun₁, h₁, hsame⟩ :=
    represents_new.holds.sameNodes_run represents_new (fun path => Iff.rfl) hrun'
  exact ⟨t, t', t₁, replies, replies₁, hrun, hrun', hrun₁, h.count_eq.trans h'.count_eq.symm,
    hsame, h'.size_le h, h'.shape.size_eq_of_sameNodes h₁.shape hsame⟩

end Keep

end Routemap
