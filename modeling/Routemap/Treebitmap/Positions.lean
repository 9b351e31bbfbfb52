/-
  Routemap.Treebitmap.Positions

  The position of a prefix, as the four routines, the iterator and the lookup work
  it out: `encode` from an address and a length down the tree, `decode` back up
  from a path and a heap position, and the length a lookup masks its address to.
  The three agree at every address and every length (`position_codec`), and they are
  what the code goes by: the routines act on the slot that `encode` gives
  (`routines_encode`), and an entry of the iterator is the slot of a value, decoded
  (`iter_decode`).
-/
import Routemap.Treebitmap.Runs

namespace Routemap

open TbNode

/-! ## Encoding -/

/-- The nibbles that the routines follow and the heap position they end at. -/
def encode (addr : U128) (addrBits : Nat) : Nat → Nat → Nat → M (List Nat × Nat)
  | hop, 0, relLen => do
    let bpos ← heapPos addr addrBits hop relLen
    pure ([], bpos)
  | hop, hopsLeft + 1, relLen => do
    let nib ← nibble addr addrBits hop
    let hop ← checkedAdd hop 1
    let (path, bpos) ← encode addr addrBits hop hopsLeft relLen
    pure (nib :: path, bpos)

/-- The position of an address and a length. -/
def encodePrefix (addrBits : Nat) (addr : U128) (len : Nat) : M (List Nat × Nat) :=
  encode addr addrBits 0 (len / STRIDE) (len % STRIDE)

theorem encode_ok (addr : U128) {bits hop h k rel : Nat} (d : Descent bits hop h k rel) :
    encode addr bits hop k rel
      = .ok (pathFrom bits addr.toNat hop k, posAt bits addr.toNat (hop + k) rel) := by
  induction k generalizing hop h with
  | zero =>
      rw [encode, d.heapPos_ok, ok_bind]
      rfl
  | succ k ih =>
      cases h with
      | zero => exact absurd d.full (by simp)
      | succ h =>
          rw [encode, d.nibble_ok, ok_bind, d.hop_ok, ok_bind, ih d.next, ok_bind, pathFrom_succ,
            Descent.hops_eq]
          rfl

variable {A V : Type} [IpAddress A]

/-- The position of a network is the slot it is stored in. -/
theorem encodePrefix_ok (n : Network (IpAddress.bits A)) :
    encodePrefix (IpAddress.bits A) n.addr n.len = .ok (n.path, n.pos) := by
  have hrun := encode_ok n.addr n.descent
  rw [Nat.zero_add] at hrun
  exact hrun

/-! ## Decoding -/

/-- The stride index and the address that the iterator accumulates along a path. -/
def accumulate (addrBits : Nat) : Nat → U128 → List Nat → M (Nat × U128)
  | hop, addr, [] => pure (hop, addr)
  | hop, addr, nib :: path => do
    let (hop, addr) ← Iter.childPos addrBits hop addr nib
    accumulate addrBits hop addr path

/-- The address and the length of the entry at a position. -/
def decode (addrBits : Nat) (path : List Nat) (bpos : Nat) : M (U128 × Nat) := do
  let (hop, addr) ← accumulate addrBits 0 0 path
  Iter.entryPos addrBits hop addr bpos

/-- The frame that the iterator has at a stride index with an address, over an
    empty node: what it accumulates does not depend on the node. -/
def frameAt (hop : Nat) (addr : U128) : IterFrame V := ⟨TbNode.new, hop, addr, 1, 0⟩

theorem frameAt_ok {hop : Nat} {addr : U128} (hhop : 4 * hop ≤ IpAddress.bits A)
    (haddr : addr.toNat < 2 ^ IpAddress.bits A)
    (hhost : addr.toNat % 2 ^ (IpAddress.bits A - 4 * hop) = 0) :
    (frameAt hop addr : IterFrame V).Ok (IpAddress.bits A) :=
  ⟨hhop, shape_new _, haddr, hhost⟩

/-- Along a path the iterator accumulates its nibbles. -/
theorem accumulate_ok {path : List Nat} {hop : Nat} {addr : U128}
    (ok : (frameAt hop addr : IterFrame Unit).Ok (IpAddress.bits A))
    (hpath : ∀ nib ∈ path, nib < 16) (hlen : 4 * (hop + path.length) ≤ IpAddress.bits A) :
    ∃ addr', accumulate (IpAddress.bits A) hop addr path = .ok (hop + path.length, addr')
      ∧ (frameAt (hop + path.length) addr' : IterFrame Unit).Ok (IpAddress.bits A)
      ∧ (frameAt (hop + path.length) addr' : IterFrame Unit).path (IpAddress.bits A)
        = (frameAt hop addr : IterFrame Unit).path (IpAddress.bits A) ++ path := by
  induction path generalizing hop addr with
  | nil => exact ⟨addr, rfl, ok, (List.append_nil _).symm⟩
  | cons nib path ih =>
      rw [List.length_cons] at hlen
      have hnext : 4 * (hop + 1) ≤ IpAddress.bits A := by omega
      obtain ⟨hlt, hzero, hnibs⟩ := ok.childAddr (hpath nib (List.mem_cons_self ..)) hnext rfl
      obtain ⟨addr', hrun, ok', heq⟩ := ih (frameAt_ok hnext hlt hzero)
        (fun m hm => hpath m (List.mem_cons_of_mem _ hm)) (by omega)
      have hsum : hop + 1 + path.length = hop + (nib :: path).length := by
        rw [List.length_cons]
        omega
      rw [hsum] at hrun ok' heq
      refine ⟨addr', ?_, ok', ?_⟩
      · rw [accumulate, childPos_ok (bits_le A) hnext]
        exact hrun
      · rw [heq, List.append_cons]
        exact congrArg (· ++ path) hnibs

/-- **Decoding** a slot gives the network stored in it. -/
theorem decode_ok {path : List Nat} {q : Nat} (s : Slot (levels A) path q) :
    decode (IpAddress.bits A) path q
      = .ok ((Network.ofSlot (bits_le A) (stride_dvd A) s).addr,
          (Network.ofSlot (bits_le A) (stride_dvd A) s).len) := by
  have hlen : path.length ≤ IpAddress.bits A / 4 := s.length_le
  have hroot : (frameAt 0 0 : IterFrame Unit).Ok (IpAddress.bits A) :=
    frameAt_ok (Nat.zero_le _) (Nat.two_pow_pos _) rfl
  obtain ⟨addr', hrun, ok, hpath⟩ := accumulate_ok hroot s.nibble_lt (by omega)
  have hpath' : (frameAt (0 + path.length) addr' : IterFrame Unit).path (IpAddress.bits A)
      = path := hpath
  have s' := s
  rw [← hpath'] at s'
  have hsame : Network.ofSlot (bits_le A) (stride_dvd A) s'
      = Network.ofSlot (bits_le A) (stride_dvd A) s := by
    apply Network.slot_injective (stride_dvd A)
    · rw [Network.ofSlot_path, Network.ofSlot_path, hpath']
    · rw [Network.ofSlot_pos, Network.ofSlot_pos]
  rw [decode, hrun, ← hsame]
  exact ok.entryPos s'

/-- The position of a network decodes to it. -/
theorem decode_network (n : Network (IpAddress.bits A)) :
    decode (IpAddress.bits A) n.path n.pos = .ok (n.addr, n.len) := by
  have hsame : Network.ofSlot (bits_le A) (stride_dvd A) (n.slot (stride_dvd A)) = n :=
    Network.slot_injective (stride_dvd A) (Network.ofSlot_path ..) (Network.ofSlot_pos ..)
  rw [decode_ok (n.slot (stride_dvd A)), hsame]

/-! ## Selecting -/

/-- What `longest_match_impl` selects, with the position it is stored at. -/
structure Selected (V : Type) where
  value : V
  len : Nat
  path : List Nat
  bpos : Nat

/-- The part of a selection that `longest_match_impl` keeps. -/
def Selected.best (s : Selected V) : V × Nat := (s.value, s.len)

/-- `longestMatchNode` at the node of a path. -/
def selectNode (node : TbNode V) (nib hop : Nat) (path : List Nat)
    (best : Option (Selected V)) : M (Option (Selected V)) := do
  let bit0 ← setBit 0 1
  let bit1 ← setBit 0 (2 ||| nib >>> 3)
  let bit2 ← setBit 0 (4 ||| nib >>> 2)
  let bit3 ← setBit 0 (8 ||| nib >>> 1)
  let hits := node.internal &&& (bit0 ||| bit1 ||| bit2 ||| bit3)
  if hits != 0 then
    let bpos ← checkedSub 31 (leadingZeros hits)
    let relLen ← checkedSub 31 (leadingZeros (BitVec.ofNat 32 bpos))
    let value ← vecGet node.values (← rank node.internal bpos)
    let len ← checkedAdd (← checkedMul hop STRIDE) relLen
    pure (some { value, len, path, bpos })
  else pure best

/-- `longestMatchLoop` with the path of the node it is at. -/
def selectLoop (addr : U128) (addrBits : Nat) :
    Nat → TbNode V → List Nat → Option (Selected V) → Nat →
      M (TbNode V × List Nat × Option (Selected V) × Nat)
  | 0, node, path, best, hop => pure (node, path, best, hop)
  | stridesLeft + 1, node, path, best, hop => do
    let nib ← nibble addr addrBits hop
    let best ← selectNode node nib hop path best
    if !(← testBit node.external nib) then pure (node, path, best, hop)
    else
      let child ← vecGet node.children (← rank node.external nib)
      let hop ← checkedAdd hop 1
      selectLoop addr addrBits stridesLeft child (path ++ [nib]) best hop

/-- `longestMatchLast` with the path of the node at the end. -/
def selectLast (addrBits totalStrides : Nat) (node : TbNode V) (path : List Nat)
    (best : Option (Selected V)) (hop : Nat) : M (Option (Selected V)) := do
  if hop == totalStrides then
    if ← testBit node.internal 1 then
      let value ← vecGet node.values (← rank node.internal 1)
      pure (some { value, len := addrBits, path, bpos := 1 })
    else pure best
  else pure best

/-- `longest_match_impl`, with the position of its match. -/
def RouteMap.select (t : RouteMap A V) (addr : U128) : M (Option (Selected V)) := do
  let addrBits := IpAddress.bits A
  let totalStrides := addrBits / STRIDE
  let (node, path, best, hop) ← selectLoop addr addrBits totalStrides t.root [] none 0
  selectLast addrBits totalStrides node path best hop

/-! ### Without the position -/

section Erase

variable (node : TbNode V) (path : List Nat) (best : Option (Selected V)) (hop : Nat)

theorem selectNode_best (nib : Nat) :
    longestMatchNode node nib hop (best.map Selected.best)
      = (do pure ((← selectNode node nib hop path best).map Selected.best)) := by
  simp only [longestMatchNode, selectNode, bind_assoc]
  refine bind_congr fun bit0 => bind_congr fun bit1 => bind_congr fun bit2 =>
    bind_congr fun bit3 => ?_
  split
  · simp only [bind_assoc, pure_bind]
    rfl
  · rw [pure_bind]

theorem selectLast_best (addrBits totalStrides : Nat) :
    longestMatchLast addrBits totalStrides node (best.map Selected.best) hop
      = (do pure ((← selectLast addrBits totalStrides node path best hop).map
          Selected.best)) := by
  rw [longestMatchLast, selectLast]
  split
  · simp only [bind_assoc]
    refine bind_congr fun set => ?_
    split
    · simp only [bind_assoc, pure_bind]
      rfl
    · rw [pure_bind]
  · rw [pure_bind]

theorem selectLoop_best (addr : U128) (addrBits stridesLeft : Nat) :
    longestMatchLoop addr addrBits stridesLeft node (best.map Selected.best) hop
      = (do
        let (node, _, best, hop) ← selectLoop addr addrBits stridesLeft node path best hop
        pure (node, best.map Selected.best, hop)) := by
  induction stridesLeft generalizing node path best hop with
  | zero => rfl
  | succ stridesLeft ih =>
      simp only [longestMatchLoop, selectLoop, selectNode_best node path, bind_assoc, pure_bind]
      refine bind_congr fun nib => bind_congr fun best => bind_congr fun set => ?_
      split
      · rfl
      · simp only [bind_assoc]
        exact bind_congr fun idx => bind_congr fun child => bind_congr fun hop =>
          ih child (path ++ [nib]) best hop

end Erase

/-- Selecting without the position is `longest_match_impl`. -/
theorem RouteMap.select_best (t : RouteMap A V) (addr : U128) :
    t.longestMatchImpl addr = (do pure ((← t.select addr).map Selected.best)) := by
  have hloop := selectLoop_best t.root [] none 0 addr (IpAddress.bits A)
    (IpAddress.bits A / STRIDE)
  rw [Option.map_none] at hloop
  rw [longestMatchImpl, select, hloop]
  simp only [bind_assoc, pure_bind]
  refine bind_congr ?_
  rintro ⟨node, path, best, hop⟩
  exact selectLast_best node path best hop _ _

/-! ### The position of the length -/

/-- The selected position is that of the selected length along the address. -/
structure Selected.Along (bits a : Nat) (s : Selected V) : Prop where
  len_le : s.len ≤ bits
  path_eq : s.path = pathFrom bits a 0 (s.len / 4)
  bpos_eq : s.bpos = posAt bits a (s.len / 4) (s.len % 4)

section Along

variable {bits : Nat} {node : TbNode V} {best : Option (Selected V)} {hop : Nat} {s : Selected V}

/-- The highest hit in a node is the position of the length that is read off it. -/
theorem selectNode_along {a : Nat} (hhop : 4 * (hop + 1) ≤ bits)
    (hbest : ∀ s, best = some s → s.Along bits a)
    (h : selectNode node (nib bits a hop) hop (pathFrom bits a 0 hop) best = .ok (some s)) :
    s.Along bits a := by
  have hnib := nib_lt bits a hop
  obtain ⟨h1, h2, h3⟩ := or_positions hnib
  rw [selectNode, setBit_ok _ (by decide), ok_bind, setBit_ok _ (by omega), ok_bind,
    setBit_ok _ (by omega), ok_bind, setBit_ok _ (by omega), ok_bind] at h
  change (if (node.internal &&& hitMask (nib bits a hop) != 0#32) = true then _ else _) = _ at h
  split at h
  case isFalse => exact hbest s (Except.ok.inj h)
  case isTrue hne =>
    -- the highest hit is one of the positions along the address
    have hbit := RankVec.getLsbD_log2 (b := node.internal &&& hitMask (nib bits a hop))
      (by simpa using hne)
    rw [BitVec.getLsbD_and, Bool.and_eq_true] at hbit
    obtain ⟨rel, hrel, hq⟩ := (getLsbD_hitMask hnib _).mp hbit.2
    have hpos : (node.internal &&& hitMask (nib bits a hop)).toNat.log2 = posAt bits a hop rel := hq
    have hlt : posAt bits a hop rel < 2 ^ (rel + 1) := posAt_lt hrel
    have hpow : 2 ^ (rel + 1) ≤ 2 ^ 4 := Nat.pow_le_pow_right Nat.two_pos (by omega)
    change (checkedSub 31 (leadingZeros (node.internal &&& hitMask (nib bits a hop)))
      >>= _) = _ at h
    rw [highBit_ok (by simpa using hne), ok_bind, hpos, relLen_ok (posAt_pos ..) (by omega),
      ok_bind, log2_posAt hrel] at h
    simp only [bind_eq_ok, checkedAdd_eq_ok, pure_eq_ok, Except.ok.injEq, Option.some.injEq] at h
    obtain ⟨idx, -, value, -, base, hbase, len, ⟨-, rfl⟩, rfl⟩ := h
    have hmul : base = 4 * hop := by
      rw [checkedMul] at hbase
      split at hbase
      · rw [← Except.ok.inj hbase, STRIDE, Nat.mul_comm]
      · cases hbase
    have hdiv : (base + rel) / 4 = hop := by omega
    have hmod : (base + rel) % 4 = rel := by omega
    exact ⟨by simp only; omega, by simp only [hdiv], by simp only [hdiv, hmod]⟩

/-- The loop selects along the address, and stops at the node of its nibbles. -/
theorem selectLoop_along {addr : U128} (hbits : bits ≤ 128) {stridesLeft : Nat}
    {node node' : TbNode V} {path' : List Nat} {best best' : Option (Selected V)} {hop hop' : Nat}
    (hhop : 4 * (hop + stridesLeft) = bits)
    (hbest : ∀ s, best = some s → s.Along bits addr.toNat)
    (h : selectLoop addr bits stridesLeft node (pathFrom bits addr.toNat 0 hop) best hop
      = .ok (node', path', best', hop')) :
    path' = pathFrom bits addr.toNat 0 hop' ∧ ∀ s, best' = some s → s.Along bits addr.toNat := by
  induction stridesLeft generalizing node best hop with
  | zero =>
      cases h
      exact ⟨rfl, hbest⟩
  | succ stridesLeft ih =>
      rw [selectLoop, nibble_ok hbits (by omega), ok_bind] at h
      obtain ⟨best₁, hnode, h⟩ := bind_eq_ok.mp h
      have hbest₁ : ∀ s, best₁ = some s → s.Along bits addr.toNat := by
        rintro s rfl
        exact selectNode_along (by omega) hbest hnode
      obtain ⟨set, -, h⟩ := bind_eq_ok.mp h
      split at h
      · cases h
        exact ⟨rfl, hbest₁⟩
      · simp only [bind_eq_ok, checkedAdd_eq_ok] at h
        obtain ⟨idx, -, child, -, hop₁, ⟨-, rfl⟩, h⟩ := h
        have hpath := pathFrom_concat bits addr.toNat 0 hop
        rw [Nat.zero_add] at hpath
        rw [← hpath] at h
        exact ih (by omega) hbest₁ h

end Along

/-- **What is selected** is stored at the position of its length along the address. -/
theorem RouteMap.select_along {t : RouteMap A V} {addr : U128} {s : Selected V}
    (h : t.select addr = .ok (some s)) : s.Along (IpAddress.bits A) addr.toNat := by
  have hdvd := stride_dvd A
  obtain ⟨⟨node, path, best, hop⟩, hloop, hlast⟩ := bind_eq_ok.mp h
  dsimp only at hlast
  have hstart : 4 * (0 + IpAddress.bits A / STRIDE) = IpAddress.bits A := by
    rw [STRIDE]
    omega
  have hnone : ∀ s : Selected V, none = some s → s.Along (IpAddress.bits A) addr.toNat := by
    intro s hs
    cases hs
  obtain ⟨hpath, hbest⟩ := selectLoop_along (bits_le A) hstart hnone hloop
  rw [selectLast] at hlast
  split at hlast
  case isFalse => exact hbest s (Except.ok.inj hlast)
  case isTrue hhop =>
    obtain ⟨set, -, hlast⟩ := bind_eq_ok.mp hlast
    split at hlast
    case isFalse => exact hbest s (Except.ok.inj hlast)
    case isTrue =>
      simp only [bind_eq_ok, pure_eq_ok, Except.ok.injEq, Option.some.injEq] at hlast
      obtain ⟨idx, -, value, -, rfl⟩ := hlast
      rw [beq_iff_eq] at hhop
      have hmod : IpAddress.bits A % 4 = 0 := Nat.mod_eq_zero_of_dvd hdvd
      refine ⟨Nat.le_refl _, by rw [hpath, hhop]; rfl, ?_⟩
      -- no bits are left over at the full length
      have hzero : nib (IpAddress.bits A) addr.toNat (IpAddress.bits A / 4) / 2 ^ (4 - 0) = 0 :=
        Nat.div_eq_of_lt (nib_lt _ _ _)
      simp only [hmod, posAt, hzero]
      rfl

/-! ## In the code -/

/-- **The routines** act on the slot that `encode` gives for the masked prefix, with the
    arguments they are called with. -/
theorem RouteMap.routines_encode {t : RouteMap A V} (hp : Packed t.root) (pfx : IpPrefix A) :
    ∃ path bpos,
      encodePrefix (IpAddress.bits A) (IpAddress.toU128 (IpAddress.ip (IpAddress.masked pfx)))
          (IpAddress.mask (IpAddress.masked pfx)) = .ok (path, bpos)
      ∧ (∀ v, t.insert pfx v = .ok ⟨t.root.insertPath path bpos v,
          if (t.root.lookup path bpos).isNone then t.count + 1 else t.count⟩)
      ∧ t.get pfx = .ok (t.root.lookup path bpos)
      ∧ t.contains pfx = .ok (t.root.lookup path bpos).isSome
      ∧ t.remove pfx = (do
          let value := t.root.lookup path bpos
          let count ← if value.isSome then checkedSub t.count 1 else pure t.count
          pure (⟨t.root.removePath path bpos, count⟩, value)) :=
  ⟨(network pfx).path, (network pfx).pos, encodePrefix_ok (network pfx), insert_eq hp pfx,
    get_eq hp pfx, contains_eq hp pfx, remove_eq hp pfx⟩

/-- **The iterator** returns what the slots of the stored values decode to. -/
theorem RouteMap.iter_decode {t : RouteMap A V} (hs : Shape (levels A) t.root) :
    ∃ es, t.iter.collect = .ok es
      ∧ ∀ pfx v, (pfx, v) ∈ es ↔
          ∃ path bpos, t.root.lookup path bpos = some v
            ∧ decode (IpAddress.bits A) path bpos
              = .ok (IpAddress.toU128 (IpAddress.ip pfx), IpAddress.mask pfx) := by
  obtain ⟨ok, hpend⟩ := iter_ok hs
  obtain ⟨es, hcollect, hmap, hmasked, -⟩ := Iter.collect_ok ok
  rw [hpend] at hmap
  refine ⟨es, hcollect, ?_⟩
  intro pfx v
  refine ⟨?_, ?_⟩
  · intro he
    have hmem : slotEntry (pfx, v) ∈ t.root.entries (levels A) [] := by
      rw [← hmap]
      exact List.mem_map_of_mem he
    obtain ⟨path, hpath, hv⟩ := hs.mem_entries.mp hmem
    refine ⟨path, (network pfx).pos, hv, ?_⟩
    have hpfx : IpAddress.masked pfx = pfx := hmasked (pfx, v) he
    rw [← show (network pfx).path = path from hpath, decode_network]
    change Except.ok (IpAddress.toU128 (IpAddress.ip (IpAddress.masked pfx)),
      IpAddress.mask (IpAddress.masked pfx)) = _
    rw [hpfx]
  · rintro ⟨path, bpos, hv, hdecode⟩
    have s := hs.slot_of_lookup hv
    obtain ⟨haddr, hlen⟩ := Prod.mk.inj (Except.ok.inj ((decode_ok s).symm.trans hdecode))
    -- the prefix is the masked one of the network in the slot
    have hpfx : pfx = ofNetwork (Network.ofSlot (bits_le A) (stride_dvd A) s) := by
      refine prefix_eq ?_ ?_
      · rw [toU128_ip_ofNetwork, haddr]
      · rw [mask_ofNetwork, hlen]
    have hslot : slotEntry (pfx, v) = ((path, bpos), v) := by
      rw [hpfx, slotEntry, network_ofNetwork, Network.ofSlot_path, Network.ofSlot_pos]
    have hmem : slotEntry (pfx, v) ∈ t.root.entries (levels A) [] := by
      rw [hslot]
      exact hs.mem_entries.mpr ⟨path, rfl, hv⟩
    rw [← hmap] at hmem
    obtain ⟨e, he, heq⟩ := List.mem_map.mp hmem
    rwa [eq_of_slotEntry (hmasked e he) (by rw [hpfx, masked_ofNetwork]) heq] at he

/-! ## The codec -/

/-- **Prefixes and positions correspond.**  Over both families: a masked prefix is
    what its position decodes to; a valid position is the one of the prefix it
    decodes to, which has no host bit set; and whatever tree an address is looked up
    in, the prefix of the match is what the selected position decodes to. -/
theorem position_codec (A V : Type) [IpAddress A] :
    (∀ n : Network (IpAddress.bits A), ∃ path bpos,
      encodePrefix (IpAddress.bits A) n.addr n.len = .ok (path, bpos)
        ∧ decode (IpAddress.bits A) path bpos = .ok (n.addr, n.len))
    ∧ (∀ path bpos, Slot (IpAddress.bits A / 4) path bpos →
        ∃ n : Network (IpAddress.bits A),
          decode (IpAddress.bits A) path bpos = .ok (n.addr, n.len)
          ∧ encodePrefix (IpAddress.bits A) n.addr n.len = .ok (path, bpos))
    ∧ ∀ (t : RouteMap A V) (a : A),
        t.longestMatchImpl (IpAddress.toU128 a)
          = (do pure ((← t.select (IpAddress.toU128 a)).map Selected.best))
        ∧ ∀ s, t.select (IpAddress.toU128 a) = .ok (some s) →
            ∃ pfx, t.longestMatchEntry a = .ok (some (pfx, s.value))
              ∧ decode (IpAddress.bits A) s.path s.bpos
                = .ok (IpAddress.toU128 (IpAddress.ip pfx), IpAddress.mask pfx) := by
  refine ⟨?_, ?_, ?_⟩
  · intro n
    exact ⟨n.path, n.pos, encodePrefix_ok n, decode_network n⟩
  · intro path bpos s
    refine ⟨Network.ofSlot (bits_le A) (stride_dvd A) s, decode_ok s, ?_⟩
    rw [encodePrefix_ok, Network.ofSlot_path, Network.ofSlot_pos]
  · intro t a
    refine ⟨t.select_best _, ?_⟩
    intro s hs
    have along := RouteMap.select_along hs
    have himpl : t.longestMatchImpl (IpAddress.toU128 a) = .ok (some (s.value, s.len)) := by
      rw [t.select_best, hs]
      rfl
    refine ⟨_, RouteMap.longestMatchEntry_of_impl along.len_le himpl, ?_⟩
    rw [toU128_ip_ofNetwork, mask_ofNetwork, ← decode_network, Network.path_ofAddr,
      Network.pos_ofAddr (bits_le A) (stride_dvd A), along.path_eq, along.bpos_eq]

end Routemap
