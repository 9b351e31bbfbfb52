/-
  Routemap.Treebitmap.Nodes

  The nodes of a tree.  The paths that have one are the nodes of the trie of the
  paths of the live prefixes (`nodeAt_isSome_iff_mem`), what is below a path
  depends on the live prefixes below it alone (`nodeAt_congr`), and both carry over
  to what one update does to the tree: which nodes it makes, which it prunes, and
  that it leaves all others as they are.  What a table can grow to is bounded by the
  number of networks, and by what was put into it.
-/
import Routemap.Lib.Prefixes
import Routemap.Treebitmap.Canonical
import Mathlib.Order.Interval.Finset.Nat

namespace Routemap

open History TbNode Prefixes

/-! ## Number -/

section Size

variable {V : Type} {h : Nat} {n : TbNode V}

namespace TbNode

mutual
/-- The number of nodes of a tree. -/
def size : TbNode V → Nat
  | ⟨_, _, _, children⟩ => sizeBelow children + 1

/-- The number of nodes of a list of trees. -/
def sizeBelow : List (TbNode V) → Nat
  | [] => 0
  | child :: rest => child.size + sizeBelow rest
end

theorem sizeBelow_eq (children : List (TbNode V)) :
    sizeBelow children = (children.map size).sum := by
  induction children with
  | nil => rfl
  | cons c rest ih => rw [sizeBelow, ih, List.map_cons, List.sum_cons]

theorem size_eq (n : TbNode V) : n.size = (n.children.map size).sum + 1 := by
  cases n
  rw [size, sizeBelow_eq]

/-- The paths to the nodes of a tree with at most `h` levels below its root. -/
def paths : Nat → TbNode V → List (List Nat)
  | 0, _ => [[]]
  | h + 1, n =>
    [] :: (RankVec.assoc n.external.getLsbD n.children 0 16).flatMap
      fun (nib, c) => (c.paths h).map (nib :: ·)

theorem Shape.mem_paths (hs : Shape h n) {path : List Nat} :
    path ∈ n.paths h ↔ (n.nodeAt path).isSome = true := by
  induction h generalizing n path with
  | zero =>
      rw [paths, List.mem_singleton]
      cases path with
      | nil => simp [TbNode.nodeAt]
      | cons nib path =>
          -- at the bottom there are no children
          have hnone : n.childAt nib = none := by
            by_contra hne
            obtain ⟨c, hc⟩ := Option.ne_none_iff_exists'.mp hne
            exact absurd (hs.nodeOk.childAt_lt hc).2 (Nat.lt_irrefl 0)
          simp [TbNode.nodeAt, hnone]
  | succ h ih =>
      rw [paths, List.mem_cons, List.mem_flatMap]
      cases path with
      | nil => simp [TbNode.nodeAt]
      | cons nib path =>
          rw [TbNode.nodeAt]
          refine ⟨?_, ?_⟩
          · rintro (hnil | ⟨⟨nib', c⟩, hmem, hpath⟩)
            · cases hnil
            · obtain ⟨-, -, hc⟩ := RankVec.mem_assoc.mp hmem
              obtain ⟨path', hpath', heq⟩ := List.mem_map.mp hpath
              obtain ⟨rfl, rfl⟩ := List.cons.inj heq
              have hc' : n.childAt nib' = some c := hc
              rw [hc', Option.bind_some]
              exact (ih (hs.child hc')).mp hpath'
          · intro hsome
            refine Or.inr ?_
            cases hc : n.childAt nib with
            | none =>
                rw [hc] at hsome
                cases hsome
            | some c =>
                rw [hc, Option.bind_some] at hsome
                refine ⟨(nib, c), RankVec.mem_assoc.mpr ⟨Nat.zero_le _, ?_, hc⟩, ?_⟩
                · exact (hs.nodeOk.childAt_lt hc).1
                · exact List.mem_map_of_mem ((ih (hs.child hc)).mpr hsome)

theorem Shape.nodup_paths (hs : Shape h n) : (n.paths h).Nodup := by
  induction h generalizing n with
  | zero => exact List.nodup_singleton []
  | succ h ih =>
      rw [paths, List.nodup_cons]
      refine ⟨?_, ?_⟩
      · intro hnil
        obtain ⟨e, -, hpath⟩ := List.mem_flatMap.mp hnil
        obtain ⟨path, -, heq⟩ := List.mem_map.mp hpath
        cases heq
      · rw [List.Nodup, List.pairwise_flatMap]
        refine ⟨?_, ?_⟩
        · rintro ⟨nib, c⟩ hmem
          obtain ⟨-, -, hc⟩ := RankVec.mem_assoc.mp hmem
          exact (ih (hs.child hc)).map List.cons_injective
        · -- the paths below two children start with different nibbles
          refine (RankVec.assoc_sorted _ _ _ _).imp ?_
          rintro ⟨nib, c⟩ ⟨nib', c'⟩ hlt p hp p' hp' rfl
          obtain ⟨path, -, rfl⟩ := List.mem_map.mp hp
          obtain ⟨path', -, heq⟩ := List.mem_map.mp hp'
          exact Nat.ne_of_gt hlt (List.cons.inj heq).1

theorem Shape.length_paths (hs : Shape h n) : (n.paths h).length = n.size := by
  induction h generalizing n with
  | zero =>
      have hnil : n.children = [] := by
        have hfit := hs.nodeOk.fit.length_children
        rw [(hs.nodeOk.bottom rfl).1] at hfit
        exact List.eq_nil_of_length_eq_zero hfit
      rw [paths, size_eq, hnil]
      rfl
  | succ h ih =>
      have hsnd := hs.nodeOk.children_fit.assoc_snd
      rw [paths, List.length_cons, List.length_flatMap, size_eq, ← congrArg (List.map size) hsnd,
        List.map_map]
      congr 2
      apply List.map_congr_left
      rintro ⟨nib, c⟩ hmem
      obtain ⟨-, -, hc⟩ := RankVec.mem_assoc.mp hmem
      exact (List.length_map ..).trans (ih (hs.child hc))

/-- A tree has as many nodes as paths lead to one. -/
theorem Shape.size_eq_ncard (hs : Shape h n) :
    n.size = {path | (n.nodeAt path).isSome = true}.ncard := by
  have hset : {path | (n.nodeAt path).isSome = true} = ((n.paths h).toFinset : Set (List Nat)) := by
    ext path
    rw [Set.mem_ofPred_eq, Finset.mem_coe, List.mem_toFinset, hs.mem_paths]
  rw [hset, Set.ncard_coe_finset, List.toFinset_card_of_nodup hs.nodup_paths, hs.length_paths]

end TbNode
end Size

/-! ## The nodes of a table -/

variable {A V : Type} [IpAddress A]

namespace RouteMap

variable {t t' : RouteMap A V} {m m' : Fib (IpAddress.bits A) V}

/-- **The nodes of a table** are those of the trie of the paths of its networks. -/
theorem Represents.nodeAt_isSome_iff_mem (h : Represents t m) (path : List Nat) :
    (t.root.nodeAt path).isSome = true ↔ path ∈ nodes (Network.path '' support m) := by
  by_cases hnil : path = []
  · subst hnil
    exact ⟨fun _ => nil_mem_nodes _, fun _ => rfl⟩
  · rw [h.shape.nodeAt_isSome_iff h.tight hnil, mem_nodes_of_ne hnil, Set.exists_mem_image]
    refine ⟨?_, ?_⟩
    · rintro ⟨rest, q, v, hv⟩
      have s := h.shape.slot_of_lookup hv
      rw [h.lookup_slot s] at hv
      exact ⟨_, Option.isSome_iff_exists.mpr ⟨v, hv⟩, rest, (Network.ofSlot_path _ _ s).symm⟩
    · rintro ⟨n, hn, rest, hrest⟩
      obtain ⟨v, hv⟩ := Option.isSome_iff_exists.mp hn
      exact ⟨rest, n.pos, v, by rw [hrest, h.lookup_eq, hv]⟩

theorem Represents.size_eq (h : Represents t m) :
    t.root.size = (nodes (Network.path '' support m)).ncard := by
  rw [h.shape.size_eq_ncard]
  congr 1
  ext path
  exact h.nodeAt_isSome_iff_mem path

/-- **What is below a path** depends on the networks below it alone. -/
theorem Represents.nodeAt_congr (h : Represents t m) (h' : Represents t' m') {path : List Nat}
    (hsame : ∀ n : Network (IpAddress.bits A), path <+: n.path → m n = m' n) :
    t.root.nodeAt path = t'.root.nodeAt path := by
  -- below the path the two trees hold the same values
  have hlook : ∀ rest q, t.root.lookup (path ++ rest) q = t'.root.lookup (path ++ rest) q := by
    have hle : ∀ {t t' : RouteMap A V} {m m' : Fib (IpAddress.bits A) V}, Represents t m →
        Represents t' m' → (∀ n : Network (IpAddress.bits A), path <+: n.path → m n = m' n) →
        ∀ rest q v, t.root.lookup (path ++ rest) q = some v →
          t'.root.lookup (path ++ rest) q = some v := by
      intro t t' m m' h h' hsame rest q v hv
      have s := h.shape.slot_of_lookup hv
      rw [h.lookup_slot s, hsame _ ⟨rest, (Network.ofSlot_path _ _ s).symm⟩] at hv
      rw [h'.lookup_slot s, hv]
    intro rest q
    refine Option.ext fun v => ⟨hle h h' hsame rest q v, hle h' h ?_ rest q v⟩
    exact fun n hn => (hsame n hn).symm
  by_cases hnil : path = []
  · -- the whole tree
    subst hnil
    exact congrArg some (h.shape.ext_of_lookup h.tight h'.shape h'.tight hlook)
  · cases hc : t.root.nodeAt path with
    | none =>
        have hno := mt (h.shape.nodeAt_isSome_iff h.tight hnil).mpr (by simp [hc])
        simp only [hlook] at hno
        have hno' := mt (h'.shape.nodeAt_isSome_iff h'.tight hnil).mp hno
        exact (Option.not_isSome_iff_eq_none.mp hno').symm
    | some c =>
        have hsome := (h.shape.nodeAt_isSome_iff h.tight hnil).mp (by simp [hc])
        simp only [hlook] at hsome
        have hsome' := (h'.shape.nodeAt_isSome_iff h'.tight hnil).mpr hsome
        obtain ⟨c', hc'⟩ := Option.isSome_iff_exists.mp hsome'
        obtain ⟨hs, ht, -⟩ := h.shape.nodeAt h.tight hc
        obtain ⟨hs', ht', -⟩ := h'.shape.nodeAt h'.tight hc'
        rw [hc']
        refine congrArg some (hs.ext_of_lookup ht hs' ht' ?_)
        intro rest q
        have heq := hlook rest q
        rwa [lookup_eq_nodeAt, lookup_eq_nodeAt, nodeAt_append, nodeAt_append, hc, hc',
          Option.bind_some, Option.bind_some, ← lookup_eq_nodeAt, ← lookup_eq_nodeAt] at heq

/-- A node keeps its values and their bitmap while the networks stored in it keep theirs. -/
theorem Represents.values_congr (h : Represents t m) (h' : Represents t' m') {path : List Nat}
    {c c' : TbNode V} (hc : t.root.nodeAt path = some c) (hc' : t'.root.nodeAt path = some c')
    (hsame : ∀ n : Network (IpAddress.bits A), n.path = path → m n = m' n) :
    c.internal = c'.internal ∧ c.values = c'.values := by
  obtain ⟨hs, -, -⟩ := h.shape.nodeAt h.tight hc
  obtain ⟨hs', -, -⟩ := h'.shape.nodeAt h'.tight hc'
  have hle : ∀ {t t' : RouteMap A V} {m m' : Fib (IpAddress.bits A) V}, Represents t m →
      Represents t' m' → (∀ n : Network (IpAddress.bits A), n.path = path → m n = m' n) →
      ∀ q v, t.root.lookup path q = some v → t'.root.lookup path q = some v := by
    intro t t' m m' h h' hsame q v hv
    have s := h.shape.slot_of_lookup hv
    rw [h.lookup_slot s, hsame _ (Network.ofSlot_path _ _ s)] at hv
    rw [h'.lookup_slot s, hv]
  have hvalue : ∀ q, c.valueAt q = c'.valueAt q := by
    intro q
    have hlook : t.root.lookup path q = t'.root.lookup path q :=
      Option.ext fun v => ⟨hle h h' hsame q v, hle h' h (fun n hn => (hsame n hn).symm) q v⟩
    rwa [lookup_eq_nodeAt, lookup_eq_nodeAt, hc, hc'] at hlook
  obtain ⟨hbits, hvalues⟩ := hs.nodeOk.values_fit.ext hs'.nodeOk.values_fit hvalue
  exact ⟨BitVec.eq_of_getLsbD_eq fun i _ => congrFun hbits i, hvalues⟩

end RouteMap

/-! ## Runs -/

/-- The paths of the prefixes a run leaves live. -/
def livePaths (calls : List (Call A V)) : Set (List Nat) :=
  Network.path '' {n | ∃ v, Live (writes calls) n v}

theorem image_path_support {m : Fib (IpAddress.bits A) V} {calls : List (Call A V)}
    (hlive : ∀ n v, Live (writes calls) n v ↔ m n = some v) :
    Network.path '' support m = livePaths calls := by
  rw [livePaths]
  congr 1
  ext n
  simp only [support, Set.mem_ofPred_eq, Option.isSome_iff_exists, hlive]

theorem ncard_image_path_le (m : Fib (IpAddress.bits A) V) :
    (nodes (Network.path '' support m)).ncard
      ≤ 1 + (support m).ncard * (IpAddress.bits A / 4) := by
  have hfin : (support m).Finite := Set.toFinite _
  have hlen : ∀ path ∈ Network.path '' support m, path.length ≤ IpAddress.bits A / 4 := by
    rintro path ⟨n, -, rfl⟩
    rw [Network.length_path]
    exact Nat.div_le_div_right n.len_le
  have himage := Set.ncard_image_le (f := Network.path) hfin
  have hle := ncard_nodes_le (hfin.image Network.path) hlen
  exact hle.trans (Nat.add_le_add_left (Nat.mul_le_mul_right _ himage) 1)

/-- **Subtrees are canonical.**  Two runs that leave the same entries live below a path of
    nibbles, prefix and value, whatever they leave elsewhere, end in tables with the very
    same subtree there, or with none in both. -/
theorem canonical_subtree (calls calls' : List (Call A V)) :
    ∃ t replies t' replies', runCalls calls = .ok (t, replies)
      ∧ runCalls calls' = .ok (t', replies')
      ∧ ∀ path : List Nat,
          (∀ n v, path <+: n.path → (Live (writes calls) n v ↔ Live (writes calls') n v)) →
          t.root.nodeAt path = t'.root.nodeAt path := by
  obtain ⟨t, replies, m, hrun, h, hlive, -⟩ := run_live calls
  obtain ⟨t', replies', m', hrun', h', hlive', -⟩ := run_live calls'
  refine ⟨t, replies, t', replies', hrun, hrun', ?_⟩
  intro path hsame
  refine h.nodeAt_congr h' ?_
  intro n hn
  exact Option.ext fun v => by rw [← hlive, hsame n v hn, hlive']

/-- **The size of the tree.**  After every run the tree has a node for each start of
    the nibbles of a live prefix, and the root: at most `A::BITS / 4` for each entry. -/
theorem tree_size (calls : List (Call A V)) :
    ∃ t replies, runCalls calls = .ok (t, replies)
      ∧ t.root.size = (nodes (livePaths calls)).ncard
      ∧ t.root.size ≤ 1 + t.count * (IpAddress.bits A / 4) := by
  obtain ⟨t, replies, m, hrun, h, hlive, -⟩ := run_live calls
  refine ⟨t, replies, hrun, ?_, ?_⟩
  · rw [h.size_eq, image_path_support hlive]
  · rw [h.size_eq, h.count_eq]
    exact ncard_image_path_le m

/-! ## Updates -/

section Updates

variable {t t' : RouteMap A V} {m : Fib (IpAddress.bits A) V} {n : Network (IpAddress.bits A)}

theorem support_update_some (m : Fib (IpAddress.bits A) V) (n : Network (IpAddress.bits A))
    (v : V) : support (Function.update m n (some v)) = insert n (support m) := by
  ext k
  by_cases h : k = n <;> simp [support, h]

theorem support_update_none (m : Fib (IpAddress.bits A) V) (n : Network (IpAddress.bits A)) :
    support (Function.update m n none) = support m \ {n} := by
  ext k
  by_cases h : k = n <;> simp [support, h]

/-- An update of one network leaves everything off its path as it was. -/
theorem RouteMap.Represents.nodeAt_update {w : Option V} (h : Represents t m)
    (h' : Represents t' (Function.update m n w)) {path : List Nat} (hoff : ¬ path <+: n.path) :
    t'.root.nodeAt path = t.root.nodeAt path := by
  refine h'.nodeAt_congr h ?_
  intro k hk
  refine Function.update_of_ne ?_ _ _
  rintro rfl
  exact hoff hk

/-- An update leaves the values of every node that is not at the end of the path. -/
theorem RouteMap.Represents.values_update {w : Option V} (h : Represents t m)
    (h' : Represents t' (Function.update m n w)) {path : List Nat} (hoff : path ≠ n.path)
    {c c' : TbNode V} (hc : t.root.nodeAt path = some c) (hc' : t'.root.nodeAt path = some c') :
    c'.internal = c.internal ∧ c'.values = c.values := by
  refine h'.values_congr h hc' hc ?_
  intro k hk
  refine Function.update_of_ne ?_ _ _
  rintro rfl
  exact hoff hk.symm

/-- **Updates are local.**  After every run, an insert makes the nodes that are missing
    on the path of its prefix, as many as the tree grows by, and a remove prunes the
    nodes on the path that no other live prefix needs.  Neither changes a subtree off
    that path, nor the bitmap and the values of a node that is not at its end. -/
theorem update_nodes (calls : List (Call A V)) (pfx : IpPrefix A) :
    ∃ t replies, runCalls calls = .ok (t, replies)
      ∧ (∀ v, ∃ t', t.insert pfx v = .ok t'
          ∧ (∀ path, (t'.root.nodeAt path).isSome = true ↔
              (t.root.nodeAt path).isSome = true ∨ path <+: (network pfx).path)
          ∧ (∀ path, ¬ path <+: (network pfx).path → t'.root.nodeAt path = t.root.nodeAt path)
          ∧ (∀ path c c', path ≠ (network pfx).path → t.root.nodeAt path = some c →
              t'.root.nodeAt path = some c' → c'.internal = c.internal ∧ c'.values = c.values)
          ∧ t'.root.size = t.root.size + Prefixes.missing (livePaths calls) (network pfx).path)
      ∧ ∃ t' found, t.remove pfx = .ok (t', found)
          ∧ (∀ path, (t'.root.nodeAt path).isSome = true ↔
              (t.root.nodeAt path).isSome = true ∧ (path = [] ∨
                ∃ n v, Live (writes calls) n v ∧ n ≠ network pfx ∧ path <+: n.path))
          ∧ (∀ path, ¬ path <+: (network pfx).path → t'.root.nodeAt path = t.root.nodeAt path)
          ∧ ∀ path c c', path ≠ (network pfx).path → t.root.nodeAt path = some c →
              t'.root.nodeAt path = some c' →
              c'.internal = c.internal ∧ c'.values = c.values := by
  obtain ⟨t, replies, m, hrun, h, hlive, -⟩ := run_live calls
  refine ⟨t, replies, hrun, ?_, ?_⟩
  · intro v
    obtain ⟨t', hinsert, h'⟩ := h.insert pfx v
    have hset : Network.path '' support (Function.update m (network pfx) (some v))
        = insert (network pfx).path (Network.path '' support m) := by
      rw [support_update_some, Set.image_insert_eq]
    refine ⟨t', hinsert, ?_, ?_, ?_, ?_⟩
    · intro path
      rw [h.nodeAt_isSome_iff_mem, h'.nodeAt_isSome_iff_mem, hset, nodes_insert]
      -- a node on the path is there already, or one of those that are missing
      refine ⟨fun hp => hp.imp_right And.left, ?_⟩
      rintro (hold | hpre)
      · exact Or.inl hold
      · exact or_iff_not_imp_left.mpr fun hnew => ⟨hpre, hnew⟩
    · exact fun path hoff => h.nodeAt_update h' hoff
    · exact fun path c c' hoff hc hc' => h.values_update h' hoff hc hc'
    · rw [h.size_eq, h'.size_eq, hset, ncard_nodes_insert ((Set.toFinite _).image _),
        image_path_support hlive]
  · obtain ⟨t', hremove, h'⟩ := h.remove pfx
    refine ⟨t', _, hremove, ?_, ?_, ?_⟩
    · intro path
      rw [h.nodeAt_isSome_iff_mem, h'.nodeAt_isSome_iff_mem, support_update_none]
      refine ⟨?_, ?_⟩
      · intro hp
        refine ⟨nodes_mono (Set.image_mono Set.sdiff_subset) hp, hp.imp_right ?_⟩
        rintro ⟨_, ⟨n, ⟨hn, hne⟩, rfl⟩, hpre⟩
        obtain ⟨v, hv⟩ := Option.isSome_iff_exists.mp hn
        exact ⟨n, v, (hlive n v).mpr hv, hne, hpre⟩
      · rintro ⟨-, hnil | ⟨n, v, hv, hne, hpre⟩⟩
        · exact Or.inl hnil
        · have hn : n ∈ support m := Option.isSome_iff_exists.mpr ⟨v, (hlive n v).mp hv⟩
          exact mem_nodes_of_prefix (Set.mem_image_of_mem _ ⟨hn, hne⟩) hpre
    · exact fun path hoff => h.nodeAt_update h' hoff
    · exact fun path c c' hoff hc hc' => h.values_update h' hoff hc hc'

end Updates

/-! ## Capacity -/

/-- The number of a network in a heap of all of them, the shorter ones first. -/
def Network.heapIndex {bits : Nat} (n : Network bits) : Nat := 2 ^ n.len + n.top

theorem Network.heapIndex_lt {bits : Nat} (n : Network bits) :
    n.heapIndex < 2 ^ (n.len + 1) := by
  have htop : n.top < 2 ^ n.len := topBits_lt n.len_le n.addr_lt
  rw [heapIndex, Nat.pow_succ]
  omega

theorem Network.heapIndex_injective {bits : Nat} :
    Function.Injective (Network.heapIndex : Network bits → Nat) := by
  intro n k heq
  -- the length is the logarithm
  have hlog : ∀ n : Network bits, n.heapIndex.log2 = n.len := by
    intro n
    have hpos : n.heapIndex ≠ 0 := by
      have := Nat.two_pow_pos n.len
      rw [heapIndex]
      omega
    exact (Nat.log2_eq_iff hpos).mpr ⟨Nat.le_add_right _ _, n.heapIndex_lt⟩
  have hlen : n.len = k.len := by rw [← hlog n, heq, hlog k]
  refine Network.ext_top hlen ?_
  rw [heapIndex, heapIndex, hlen] at heq
  exact Nat.add_left_cancel heq

/-- A family has at most `2 ^ (bits + 1) - 1` networks. -/
theorem Network.ncard_le {bits : Nat} (s : Set (Network bits)) :
    s.ncard ≤ 2 ^ (bits + 1) - 1 := by
  have hmaps : ∀ n ∈ s, n.heapIndex ∈ (Finset.Ico 1 (2 ^ (bits + 1)) : Set Nat) := by
    intro n _
    rw [Finset.mem_coe, Finset.mem_Ico]
    refine ⟨Nat.le_add_right_of_le Nat.one_le_two_pow, ?_⟩
    exact Nat.lt_of_lt_of_le n.heapIndex_lt
      (Nat.pow_le_pow_right Nat.two_pos (Nat.succ_le_succ n.len_le))
  have hle := Set.ncard_le_ncard_of_injOn _ hmaps Network.heapIndex_injective.injOn
    (Finset.finite_toSet _)
  rwa [Set.ncard_coe_finset, Nat.card_Ico] at hle

/-- The prefixes a call puts into the table, with repeats. -/
def Call.puts : Call A V → List (IpPrefix A)
  | .insert pfx _ => [pfx]
  | .fromIter pairs => pairs.map Prod.fst
  | _ => []

theorem filterMap_key_writes (calls : List (Call A V)) :
    (writes calls).filterMap Write.key? = (calls.flatMap Call.puts).map network := by
  rw [writes, List.filterMap_flatMap, List.map_flatMap]
  refine List.flatMap_congr fun call _ => ?_
  cases call with
  | fromIter pairs =>
      rw [Call.writes, Call.puts, List.filterMap_cons_none rfl, List.filterMap_map, List.map_map,
        ← List.filterMap_eq_map]
      rfl
  | _ => rfl

/-- A node has room for 15 values and 16 children. -/
theorem TbNode.NodeOk.length_le {h : Nat} {n : TbNode V} (ok : NodeOk h n) :
    n.values.length ≤ 15 ∧ n.children.length ≤ 16 := by
  refine ⟨?_, ?_⟩
  · have hlen := ok.length_valuesFrom []
    rw [valuesFrom, List.length_map, RankVec.assoc, ← ok.fit.length_values] at hlen
    rw [← hlen]
    exact (List.length_filterMap_le _ _).trans_eq (List.length_range' ..)
  · rw [ok.children_fit.length_eq, RankVec.rank]
    exact Nat.count_le _

/-- **The counter fits a 64-bit `usize`.**  After every run it is at most the number of
    prefixes of the family, and at most the number of pairs that were put in: below
    `2 ^ 64` for fewer pairs than that, and always for a family of 32 bits.  No node has
    more than 15 values and 16 children to shift. -/
theorem capacity (calls : List (Call A V)) :
    ∃ t replies, runCalls calls = .ok (t, replies)
      ∧ t.count ≤ 2 ^ (IpAddress.bits A + 1) - 1
      ∧ t.count ≤ (calls.flatMap Call.puts).length
      ∧ ((calls.flatMap Call.puts).length < 2 ^ 64 → t.count < 2 ^ 64)
      ∧ (IpAddress.bits A = 32 → t.count < 2 ^ 64)
      ∧ ∀ path node, t.root.nodeAt path = some node →
          node.values.length ≤ 15 ∧ node.children.length ≤ 16 := by
  obtain ⟨t, replies, hrun, h, -⟩ := run_represents calls
  have hfamily : t.count ≤ 2 ^ (IpAddress.bits A + 1) - 1 := by
    rw [h.count_eq]
    exact Network.ncard_le _
  have hputs : t.count ≤ (calls.flatMap Call.puts).length := by
    have hle := ncard_support_replay_le (writes calls)
    rwa [← h.count_eq, filterMap_key_writes, List.length_map] at hle
  refine ⟨t, replies, hrun, hfamily, hputs, Nat.lt_of_le_of_lt hputs, ?_, ?_⟩
  · intro hbits
    rw [hbits] at hfamily
    exact Nat.lt_of_le_of_lt hfamily (by decide)
  · intro path node hnode
    exact (h.shape.nodeAt h.tight hnode).1.nodeOk.length_le

end Routemap
