/-
  Routemap.Stride

  The treebitmap is the binary trie, four bits at a time.  A path of nibbles is a
  path of bits (`nibbleBits`), a heap position is up to three bits more
  (`posBits`), and the bits of a network are those of its slot (`bitPath_eq`).

  So the nodes of the tree are the nodes of the trie at whole nibbles, its slots
  hold what the trie holds at their bits, and a lookup that follows links in the
  trie makes a quarter as many hops in the tree.
-/
import Routemap.Arena.Space
import Routemap.Treebitmap.Nodes

namespace Routemap

open Walk History TbNode
open Prefixes (spell Code)

/-! ## Nibbles and bits -/

/-- The bits of a nibble, from the top. -/
def nibbleBits (nib : Nat) : List (Fin 2) := bitsFrom 4 nib 0 4

/-- The bits of a heap position after its leading one. -/
def posBits (q : Nat) : List (Fin 2) := bitsFrom q.log2 q 0 q.log2

section Bits

variable {bits a : Nat}

theorem bitIndex_congr {x y : Nat} (h : x % 2 = y % 2) : bitIndex x = bitIndex y := Fin.ext h

/-- Bit `j` of a nibble. -/
theorem bitOf_stride {hop j : Nat} (hj : j < 4) (hhop : 4 * (hop + 1) ≤ bits) :
    bitOf bits a (4 * hop + j) = bitIndex (nib bits a hop / 2 ^ (3 - j)) := by
  have hle : 4 * hop + j + 1 + (3 - j) ≤ bits := by omega
  rw [bitOf, topBits_div a hle, nib, show 4 * hop + j + 1 + (3 - j) = 4 * (hop + 1) by omega]
  -- the bit is within the four that the nibble keeps
  apply bitIndex_congr
  obtain rfl | rfl | rfl | rfl : j = 0 ∨ j = 1 ∨ j = 2 ∨ j = 3 := by omega
  · simp only [Nat.sub_zero, Nat.reducePow]
    omega
  · simp only [Nat.reduceSub, Nat.reducePow]
    omega
  · simp only [Nat.reduceSub, Nat.reducePow]
    omega
  · simp only [Nat.reduceSub, Nat.reducePow]
    omega

theorem bitsFrom_eq_map (bits a depth k : Nat) :
    bitsFrom bits a depth k = (List.range k).map fun j => bitOf bits a (depth + j) := by
  rw [bitsFrom, List.range'_eq_map_range, List.map_map]
  rfl

theorem bitsFrom_append (bits a depth j k : Nat) :
    bitsFrom bits a depth (j + k) = bitsFrom bits a depth j ++ bitsFrom bits a (depth + j) k := by
  rw [bitsFrom, ← List.range'_append_1, List.map_append]
  rfl

theorem bitsFrom_nibble {hop : Nat} (hhop : 4 * (hop + 1) ≤ bits) :
    bitsFrom bits a (4 * hop) 4 = nibbleBits (nib bits a hop) := by
  rw [nibbleBits, bitsFrom_eq_map, bitsFrom_eq_map]
  apply List.map_congr_left
  intro j hj
  have hj4 := List.mem_range.mp hj
  rw [bitOf_stride hj4 hhop, Nat.zero_add, bitOf, Network.topBits,
    show 4 - (j + 1) = 3 - j by omega]

/-- The bits of `k` nibbles. -/
theorem bitsFrom_path {hop k : Nat} (hk : 4 * (hop + k) ≤ bits) :
    bitsFrom bits a (4 * hop) (4 * k) = spell nibbleBits (pathFrom bits a hop k) := by
  induction k generalizing hop with
  | zero => rfl
  | succ k ih =>
      rw [show 4 * (k + 1) = 4 + 4 * k by omega, bitsFrom_append, bitsFrom_nibble (by omega),
        show 4 * hop + 4 = 4 * (hop + 1) by omega, ih (by omega), pathFrom_succ,
        Prefixes.spell_cons]

/-- The left over bits are those of the heap position. -/
theorem bitsFrom_pos {hop rel : Nat} (hrel : rel < 4) (hhop : 0 < rel → 4 * (hop + 1) ≤ bits) :
    bitsFrom bits a (4 * hop) rel = posBits (posAt bits a hop rel) := by
  rw [posBits, log2_posAt hrel, bitsFrom_eq_map, bitsFrom_eq_map]
  apply List.map_congr_left
  intro j hj
  have hjrel := List.mem_range.mp hj
  rw [bitOf_stride (by omega) (hhop (by omega)), Nat.zero_add, bitOf, Network.topBits]
  apply bitIndex_congr
  -- the leading one is above every bit that is read
  have hpow : 2 ^ rel = 2 ^ (rel - (j + 1)) * (2 * 2 ^ j) := by
    rw [← Nat.pow_succ', ← Nat.pow_add, show rel - (j + 1) + (j + 1) = rel by omega]
  rw [posAt, hpow, Nat.mul_add_div (Nat.two_pow_pos _), Nat.div_div_eq_div_mul, ← Nat.pow_add,
    show 4 - rel + (rel - (j + 1)) = 3 - j by omega]
  omega

end Bits

theorem nibbleCode : Code nibbleBits 4 {nib | nib < 16} where
  pos := by decide
  length_eq nib := length_bitsFrom ..
  injOn := by
    intro a ha b hb heq
    have htop := (bitsFrom_eq_iff (Nat.le_refl 4) ha hb).mp heq
    rwa [Network.topBits, Network.topBits, Nat.sub_self, Nat.pow_zero, Nat.div_one,
      Nat.div_one] at htop

variable {A V : Type} [IpAddress A]

/-- **The bits of a network** are those of its slot. -/
theorem bitPath_eq (n : Network (IpAddress.bits A)) :
    n.bitPath = spell nibbleBits n.path ++ posBits n.pos := by
  have hdvd := stride_dvd A
  have hlen := n.len_le
  have hpath : bitsFrom (IpAddress.bits A) n.addr.toNat (4 * 0) (4 * (n.len / 4))
      = spell nibbleBits n.path := bitsFrom_path (by omega)
  have hpos : bitsFrom (IpAddress.bits A) n.addr.toNat (4 * (n.len / 4)) (n.len % 4)
      = posBits n.pos := bitsFrom_pos (Nat.mod_lt _ (Nat.succ_pos _)) (by omega)
  rw [← hpath, ← hpos, Network.bitPath]
  conv_lhs => rw [← Nat.div_add_mod n.len 4, bitsFrom_append]
  rw [Nat.zero_add, Nat.mul_zero]

theorem length_posBits_lt (n : Network (IpAddress.bits A)) : (posBits n.pos).length < 4 := by
  rw [posBits, length_bitsFrom, Network.log2_pos]
  exact Nat.mod_lt _ (Nat.succ_pos _)

/-! ## Nodes and slots -/

/-- The two tables after calls both have, and the map they hold. -/
theorem shared_run (ops : List (Op A V)) :
    ∃ a t replies replies' m, runOps ops = .ok (a, replies)
      ∧ runCalls (ops.map Op.call) = .ok (t, replies')
      ∧ RouteMap.Represents t m
      ∧ (a.nodes.length ≤ NULL → a.WellShaped ∧ a.Represents m) := by
  obtain ⟨a, replies, m, hrun, hlive, hgood⟩ := runOps_wellShaped ops
  obtain ⟨t, replies', m', hrun', h, hlive', -⟩ := run_live (ops.map Op.call)
  have hm : m' = m := by
    funext n
    exact Option.ext fun v => by rw [← hlive, hlive']
  subst hm
  exact ⟨a, t, replies, replies', m', hrun, hrun', h, hgood⟩

section Quotient

variable {a : ArenaTable A V} {t : RouteMap A V} {m : Fib (IpAddress.bits A) V}

/-- A node of the tree is a node of the trie at a whole number of nibbles. -/
theorem nodeAt_isSome_iff_walk (h : RouteMap.Represents t m) (hs : a.WellShaped)
    (hm : a.Represents m) {path : List Nat} (hpath : ∀ nib ∈ path, nib < 16) :
    (t.root.nodeAt path).isSome = true
      ↔ (walk (edge a.nodes) 0 (spell nibbleBits path)).isSome = true := by
  rw [h.nodeAt_isSome_iff_mem, hs.walk_isSome_iff_mem hm]
  exact nibbleCode.mem_nodes_iff (fun n _ => bitPath_eq n) (fun n _ => length_posBits_lt n)
    (fun n _ b hb => n.path_lt hb) hpath

/-- A slot of the tree holds what the trie holds at its bits. -/
theorem lookup_eq_find (h : RouteMap.Represents t m) (hm : a.Represents m) {path : List Nat}
    {q : Nat} (s : Slot (levels A) path q) :
    t.root.lookup path q
      = find (edge a.nodes) (valueOf a.nodes) (spell nibbleBits path ++ posBits q) := by
  rw [h.lookup_slot s, ← hm.find_eq, bitPath_eq, Network.ofSlot_path, Network.ofSlot_pos]

theorem size_le_reached (h : RouteMap.Represents t m) (hs : a.WellShaped) (hm : a.Represents m) :
    t.root.size ≤ {i | Reaches (edge a.nodes) 0 i}.ncard := by
  have hnib : ∀ path ∈ Prefixes.nodes (Network.path '' support m), ∀ nib ∈ path, nib < 16 := by
    rintro path (rfl | ⟨_, ⟨n, -, rfl⟩, hpre⟩) nib hmem
    · cases hmem
    · exact n.path_lt (hpre.subset hmem)
  rw [h.size_eq, hs.ncard_reached hm]
  refine Set.ncard_le_ncard_of_injOn (spell nibbleBits) ?_ ?_
    (Prefixes.finite_nodes ((Set.toFinite _).image _))
  · intro path hpath
    rw [← hs.walk_isSome_iff_mem hm, ← nodeAt_isSome_iff_walk h hs hm (hnib path hpath),
      h.nodeAt_isSome_iff_mem]
    exact hpath
  · exact nibbleCode.spell_injOn.mono hnib

end Quotient

/-- **Strides.**  After any calls both tables have, while indices last, the tree has a
    node at a path of nibbles exactly where the binary trie has one at the bits of
    them, so it has at most as many; and each of its slots holds what the trie holds at
    the bits of the path and the position. -/
theorem stride_quotient (ops : List (Op A V)) :
    ∃ a t replies replies', runOps ops = .ok (a, replies)
      ∧ runCalls (ops.map Op.call) = .ok (t, replies')
      ∧ (a.nodes.length ≤ NULL →
          (∀ path : List Nat, (∀ nib ∈ path, nib < 16) →
            ((t.root.nodeAt path).isSome = true
              ↔ (walk (edge a.nodes) 0 (spell nibbleBits path)).isSome = true))
          ∧ (∀ path q, Slot (levels A) path q →
              t.root.lookup path q
                = find (edge a.nodes) (valueOf a.nodes) (spell nibbleBits path ++ posBits q))
          ∧ t.root.size ≤ {i | Reaches (edge a.nodes) 0 i}.ncard) := by
  obtain ⟨a, t, replies, replies', m, hrun, hrun', h, hgood⟩ := shared_run ops
  refine ⟨a, t, replies, replies', hrun, hrun', ?_⟩
  intro hlen
  obtain ⟨hs, hm⟩ := hgood hlen
  exact ⟨fun path hpath => nodeAt_isSome_iff_walk h hs hm hpath,
    fun path q s => lookup_eq_find h hm s, size_le_reached h hs hm⟩

/-! ## Hops -/

section Trace

variable {nodes : List (ArenaNode V)}

/-- `matchLoop`, with a count of the links it follows. -/
def matchTrace (addr : U128) (addrBits : Nat) (nodes : List (ArenaNode V)) :
    Nat → Nat → Nat → Option V → M (Option V × Nat)
  | 0, _, _, best => pure (best, 0)
  | left + 1, depth, cur, best => do
    let bit ← bitAt addr addrBits depth
    let childIdx := (← vecGet nodes cur).children bit
    if childIdx == NULL then pure (best, 0)
    else
      let node ← vecGet nodes childIdx
      let (best, links) ← matchTrace addr addrBits nodes left (depth + 1) childIdx
        (node.value.or best)
      pure (best, links + 1)

/-- The count changes nothing. -/
theorem matchTrace_erase (addr : U128) (bits : Nat) (nodes : List (ArenaNode V))
    (left depth cur : Nat) (best : Option V) :
    matchLoop addr bits nodes left depth cur best = (do
      let (best, _) ← matchTrace addr bits nodes left depth cur best
      pure best) := by
  induction left generalizing depth cur best with
  | zero => rfl
  | succ left ih =>
      rw [matchLoop, matchTrace, bind_assoc]
      refine bind_congr fun bit => ?_
      rw [bind_assoc]
      refine bind_congr fun node => ?_
      dsimp only
      split
      case isTrue => rfl
      case isFalse =>
        rw [bind_assoc]
        refine bind_congr fun child => ?_
        rw [ih, bind_assoc]
        rfl

/-- The loop follows links as long as there are bits and links. -/
theorem matchTrace_ok (addr : U128) {bits depth left cur : Nat} (hb : InBounds nodes)
    (hcur : cur < nodes.length) (hbits : bits ≤ 128) (hdepth : depth + left ≤ bits)
    (best : Option V) :
    ∃ best' links, matchTrace addr bits nodes left depth cur best = .ok (best', links)
      ∧ links ≤ left
      ∧ (walk (edge nodes) cur (bitsFrom bits addr.toNat depth links)).isSome = true
      ∧ (links = left
        ∨ walk (edge nodes) cur (bitsFrom bits addr.toNat depth (links + 1)) = none) := by
  induction left generalizing depth cur best with
  | zero => exact ⟨best, 0, rfl, Nat.le_refl 0, rfl, Or.inl rfl⟩
  | succ left ih =>
      rw [matchTrace, bitAt_ok hbits (by omega), ok_bind]
      cases hedge : edge nodes cur (bitOf bits addr.toNat depth) with
      | none =>
          -- the loop breaks at this link
          have hget := List.getElem?_eq_getElem hcur
          rw [vecGet_ok hget, ok_bind, if_pos (null_of_edge hget hedge)]
          refine ⟨best, 0, rfl, Nat.zero_le _, rfl, Or.inr ?_⟩
          rw [bitsFrom_succ, walk, hedge, Option.bind_none]
      | some child =>
          obtain ⟨node, hget, hnull, rfl⟩ := exists_of_edge hedge
          have hchild := hb.edge_lt _ _ _ hedge
          have hgetc := List.getElem?_eq_getElem hchild
          have hdepth' : depth + 1 + left ≤ bits := by omega
          obtain ⟨best', links, hrun, hle, hwalk, hend⟩ := ih hchild hdepth'
            ((nodes[node.children (bitOf bits addr.toNat depth)]).value.or best)
          rw [vecGet_ok hget, ok_bind, if_neg hnull, vecGet_ok hgetc, ok_bind, hrun]
          refine ⟨best', links + 1, rfl, Nat.succ_le_succ hle, ?_, ?_⟩
          · rw [bitsFrom_succ, walk, hedge, Option.bind_some]
            exact hwalk
          · refine hend.imp (congrArg (· + 1)) ?_
            intro hnone
            rw [bitsFrom_succ, walk, hedge, Option.bind_some]
            exact hnone

/-- The lookup of the tree makes a hop as long as there are nibbles and children. -/
theorem longestMatchLoop_ok (addr : U128) {n : TbNode V} {bits h hop : Nat} (hs : Shape h n)
    (hbits : bits ≤ 128) (hstr : 4 * (hop + h) = bits) (best : Option (V × Nat)) :
    ∃ node best' k, longestMatchLoop addr bits h n best hop = .ok (node, best', hop + k)
      ∧ k ≤ h
      ∧ n.nodeAt (pathFrom bits addr.toNat hop k) = some node
      ∧ (k = h ∨ n.nodeAt (pathFrom bits addr.toNat hop (k + 1)) = none) := by
  induction h generalizing hop n best with
  | zero => exact ⟨n, best, 0, rfl, Nat.le_refl 0, rfl, Or.inl rfl⟩
  | succ h ih =>
      have hnib := nib_lt bits addr.toNat hop
      rw [longestMatchLoop, nibble_ok hbits (by omega), ok_bind,
        longestMatchNode_ok hs hbits hstr addr.toNat, ok_bind,
        hs.nodeOk.fit.testBit_external (by omega), ok_bind]
      cases hc : n.childAt (nib bits addr.toNat hop) with
      | none =>
          -- the loop breaks at this child
          refine ⟨n, _, 0, rfl, Nat.zero_le _, rfl, Or.inr ?_⟩
          rw [pathFrom_succ, TbNode.nodeAt, hc, Option.bind_none]
      | some c =>
          have hstr' : 4 * (hop + 1 + h) = bits := by omega
          obtain ⟨node, best', k, hrun, hle, hnode, hend⟩ := ih (hs.child hc) hstr'
            ((asBest (4 * hop) (LastSome.lastSome (valueOfLen n bits addr.toNat hop) 4)).or best)
          rw [Option.isSome_some, if_neg (by decide), rank_ok _ (by omega), ok_bind,
            vecGet_ok (childAt_get hc), ok_bind, checkedAdd_ok (by omega), ok_bind, hrun]
          refine ⟨node, best', k + 1, ?_, Nat.succ_le_succ hle, ?_, ?_⟩
          · rw [show hop + 1 + k = hop + (k + 1) by omega]
          · rw [pathFrom_succ, TbNode.nodeAt, hc, Option.bind_some]
            exact hnode
          · refine hend.imp (congrArg (· + 1)) ?_
            intro hnone
            rw [pathFrom_succ, TbNode.nodeAt, hc, Option.bind_some]
            exact hnone

end Trace

/-- `longest_match` of the arena, with a count of the links it follows. -/
def ArenaTable.longestMatchTrace (t : ArenaTable A V) (addr : A) : M (Option V × Nat) := do
  let addr := IpAddress.toU128 addr
  let root ← vecGet t.nodes 0
  matchTrace addr (IpAddress.bits A) t.nodes (IpAddress.bits A) 0 0 root.value

/-- The hops a lookup in the tree makes: `hop` where its loop ends. -/
def RouteMap.hops (t : RouteMap A V) (addr : A) : M Nat := do
  let addr := IpAddress.toU128 addr
  let (_, _, hop) ← longestMatchLoop addr (IpAddress.bits A) (IpAddress.bits A / STRIDE) t.root
    none 0
  pure hop

section Hops

variable {a : ArenaTable A V} {t : RouteMap A V} {m : Fib (IpAddress.bits A) V}

/-- A start of a path that leads somewhere leads somewhere. -/
theorem walk_isSome_of_le {nodes : List (ArenaNode V)} {bits x j k : Nat} (hjk : j ≤ k)
    (h : (walk (edge nodes) 0 (bitsFrom bits x 0 k)).isSome = true) :
    (walk (edge nodes) 0 (bitsFrom bits x 0 j)).isSome = true := by
  rw [show k = j + (k - j) by omega, bitsFrom_append, walk_append] at h
  cases hw : walk (edge nodes) 0 (bitsFrom bits x 0 j) with
  | none =>
      rw [hw] at h
      cases h
  | some i => rfl

/-- Where one of the two lookups goes on, so does the other. -/
theorem nodeAt_pathFrom_iff (h : RouteMap.Represents t m) (hs : a.WellShaped)
    (hm : a.Represents m) (x : Nat) {k : Nat} (hk : 4 * k ≤ IpAddress.bits A) :
    (t.root.nodeAt (pathFrom (IpAddress.bits A) x 0 k)).isSome = true
      ↔ (walk (edge a.nodes) 0 (bitsFrom (IpAddress.bits A) x 0 (4 * k))).isSome = true := by
  have hpath : bitsFrom (IpAddress.bits A) x (4 * 0) (4 * k)
      = spell nibbleBits (pathFrom (IpAddress.bits A) x 0 k) := bitsFrom_path (by omega)
  rw [nodeAt_isSome_iff_walk h hs hm fun nib hnib => pathFrom_lt hnib, ← hpath, Nat.mul_zero]

/-- The two lookups of one address, in tables of one map. -/
theorem hops_eq_quarter (h : RouteMap.Represents t m) (hs : a.WellShaped) (hm : a.Represents m)
    (addr : A) :
    ∃ best links hops, a.longestMatchTrace addr = .ok (best, links) ∧ t.hops addr = .ok hops
      ∧ links ≤ IpAddress.bits A ∧ hops = links / 4 := by
  have hb := hs.inBounds
  have hpos := hb.nonempty
  have hdvd := stride_dvd A
  have hget := List.getElem?_eq_getElem hpos
  have hstr : 4 * (0 + levels A) = IpAddress.bits A := by
    rw [levels]
    omega
  obtain ⟨best, links, htrace, hle, hwalk, hend⟩ := matchTrace_ok (IpAddress.toU128 addr) hb
    hpos (bits_le A) (Nat.zero_add _).le a.nodes[0].value
  obtain ⟨node, best', k, hloop, hkle, hnode, hkend⟩ :=
    longestMatchLoop_ok (IpAddress.toU128 addr) h.shape (bits_le A) hstr none
  have hreach : ∀ {j : Nat}, 4 * j ≤ IpAddress.bits A →
      ((t.root.nodeAt (pathFrom (IpAddress.bits A) (IpAddress.toU128 addr).toNat 0 j)).isSome = true
        ↔ _) := fun hj => nodeAt_pathFrom_iff h hs hm (IpAddress.toU128 addr).toNat hj
  -- the trie is not left before the tree is
  have hlow : 4 * k ≤ links := by
    by_contra hlt
    have hdown := (hreach (show 4 * k ≤ _ by omega)).mp (by rw [hnode]; rfl)
    have hnext := walk_isSome_of_le (show links + 1 ≤ 4 * k by omega) hdown
    rcases hend with heq | hnone
    · omega
    · rw [hnone] at hnext
      cases hnext
  -- nor the tree a whole nibble before the trie
  have hhigh : links < 4 * (k + 1) := by
    by_contra hge
    rcases hkend with heq | hnone
    · omega
    · have hup := walk_isSome_of_le (show 4 * (k + 1) ≤ links by omega) hwalk
      have hnext := (hreach (show 4 * (k + 1) ≤ _ by omega)).mpr hup
      rw [hnone] at hnext
      cases hnext
  refine ⟨best, links, k, ?_, ?_, hle, by omega⟩
  · exact (congrArg (fun x => x >>= _) (vecGet_ok hget)).trans htrace
  · rw [Nat.zero_add] at hloop
    exact congrArg (fun x => x >>= _) hloop

/-- The count of links leaves the lookup as it is. -/
theorem ArenaTable.longestMatch_of_trace {addr : A} {best : Option V} {links : Nat}
    (h : a.longestMatchTrace addr = .ok (best, links)) : a.longestMatch addr = .ok best := by
  obtain ⟨root, hroot, htrace⟩ := bind_eq_ok.mp h
  rw [ArenaTable.longestMatch]
  refine (congrArg (fun x => x >>= _) hroot).trans ?_
  refine (matchTrace_erase ..).trans ?_
  exact congrArg (fun x => x >>= _) htrace

end Hops

/-- **A quarter of the hops.**  After any calls both tables have, while indices last,
    the lookup of an address finds the same value in both, and makes a quarter, rounded
    down, of the hops in the tree that it follows links in the trie; so at most
    `A::BITS / 4`. -/
theorem hops_quarter (ops : List (Op A V)) (addr : A) :
    ∃ a t replies replies', runOps ops = .ok (a, replies)
      ∧ runCalls (ops.map Op.call) = .ok (t, replies')
      ∧ (a.nodes.length ≤ NULL → ∃ found links hops,
          a.longestMatch addr = .ok found ∧ t.longestMatch addr = .ok found
          ∧ a.longestMatchTrace addr = .ok (found, links) ∧ t.hops addr = .ok hops
          ∧ links ≤ IpAddress.bits A ∧ hops = links / 4) := by
  obtain ⟨a, t, replies, replies', m, hrun, hrun', h, hgood⟩ := shared_run ops
  refine ⟨a, t, replies, replies', hrun, hrun', ?_⟩
  intro hlen
  obtain ⟨hs, hm⟩ := hgood hlen
  obtain ⟨found, links, hops, htrace, hhops, hle, hquarter⟩ := hops_eq_quarter h hs hm addr
  have hmatch := ArenaTable.longestMatch_of_trace htrace
  refine ⟨found, links, hops, hmatch, ?_, htrace, hhops, hle, hquarter⟩
  -- both find the value of the longest match
  obtain ⟨found', hmatch', hspec⟩ := ArenaTable.longestMatch_ok (m := m) hs.inBounds addr
  cases hmatch.symm.trans hmatch'
  obtain ⟨t', reply, hexec, -, hanswer⟩ := h.exec (.longestMatch addr)
  obtain ⟨value, hvalue, hreply⟩ := bind_eq_ok.mp hexec
  cases hreply
  rw [hvalue]
  exact congrArg Except.ok (Option.ext fun v => (hanswer v).trans (hspec hm v).symm)

end Routemap
