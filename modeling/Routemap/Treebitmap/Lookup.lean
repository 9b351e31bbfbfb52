/-
  Routemap.Treebitmap.Lookup

  The longest match.  Walking down along an address, a node at stride index
  `hop` can hold a match of each of the lengths `4 hop .. 4 hop + 3`; the loop
  takes the longest of them from one masked bitmap (`hits`), and the code after
  the loop adds the full length.  Together they find the last hit of the search
  over all lengths, `lastSome`.
-/
import Routemap.Treebitmap.Refine

namespace Routemap

open TbNode LastSome

variable {V : Type} {addr : U128} {bits hop h : Nat} {n : TbNode V}

/-! ## One node -/

/-- The bitmap of the positions along an address in one node. -/
def hitMask (nib : Nat) : U32 :=
  (0#32 ||| 1#32 <<< 1) ||| (0#32 ||| 1#32 <<< (2 ||| nib >>> 3))
    ||| (0#32 ||| 1#32 <<< (4 ||| nib >>> 2)) ||| (0#32 ||| 1#32 <<< (8 ||| nib >>> 1))

/-- Marking the left over bits of a length gives the position they have. -/
theorem or_shift {nib : Nat} (hnib : nib < 16) (rel : Nat) (hrel : rel < 4) :
    2 ^ rel ||| nib >>> (4 - rel) = 2 ^ rel + nib / 2 ^ (4 - rel) := by
  have hlt := nib_div_lt hnib hrel
  have hor := Nat.two_pow_add_eq_or_of_lt hlt 1
  rw [Nat.mul_one] at hor
  rw [Nat.shiftRight_eq_div_pow, hor]

/-- The positions `match_mask` is made of, beside position 1. -/
theorem or_positions {nib : Nat} (hnib : nib < 16) :
    2 ||| nib >>> 3 = 2 + nib / 8 ∧ 4 ||| nib >>> 2 = 4 + nib / 4
      ∧ 8 ||| nib >>> 1 = 8 + nib / 2 :=
  ⟨or_shift hnib 1 (by decide), or_shift hnib 2 (by decide), or_shift hnib 3 (by decide)⟩

theorem getLsbD_single {k : Nat} (hk : k < 32) (q : Nat) :
    (0#32 ||| 1#32 <<< k).getLsbD q = true ↔ q = k := by
  rw [RankVec.getLsbD_setBit _ hk, Function.update_apply]
  by_cases h : q = k <;> simp [h]

/-- The set bits of `hitMask` are the positions of the left over bits of each length. -/
theorem getLsbD_hitMask {nib : Nat} (hnib : nib < 16) (q : Nat) :
    (hitMask nib).getLsbD q = true ↔ ∃ rel < 4, q = 2 ^ rel + nib / 2 ^ (4 - rel) := by
  obtain ⟨h1, h2, h3⟩ := or_positions hnib
  rw [hitMask, h1, h2, h3, BitVec.getLsbD_or, BitVec.getLsbD_or, BitVec.getLsbD_or,
    Bool.or_eq_true, Bool.or_eq_true, Bool.or_eq_true, getLsbD_single (by omega),
    getLsbD_single (by omega), getLsbD_single (by omega), getLsbD_single (by omega)]
  refine ⟨?_, ?_⟩
  · rintro (((h | h) | h) | h)
    · exact ⟨0, by decide, by simp only [Nat.reducePow, Nat.reduceSub]; omega⟩
    · exact ⟨1, by decide, h⟩
    · exact ⟨2, by decide, h⟩
    · exact ⟨3, by decide, h⟩
  · rintro ⟨rel, hrel, h⟩
    match rel, hrel with
    | 0, _ =>
      simp only [Nat.reducePow, Nat.reduceSub] at h
      omega
    | 1, _ => exact Or.inl (Or.inl (Or.inr h))
    | 2, _ => exact Or.inl (Or.inr h)
    | 3, _ => exact Or.inr h

/-- The values of a node along an address, by the number of left over bits. -/
def valuesAlong (n : TbNode V) (nib : Nat) (rel : Nat) : Option V :=
  n.valueAt (2 ^ rel + nib / 2 ^ (4 - rel))

section Hits

variable {nib : Nat}

/-- A node without a hit has no value along the address. -/
theorem TbNode.NodeOk.hits_zero (ok : NodeOk h n) (hnib : nib < 16)
    (hits : n.internal &&& hitMask nib = 0#32) : lastSome (valuesAlong n nib) 4 = none := by
  rw [lastSome_eq_none]
  intro rel hrel
  have hbit := congrArg (fun b => b.getLsbD (2 ^ rel + nib / 2 ^ (4 - rel))) hits
  simp only [BitVec.getLsbD_and, BitVec.getLsbD_zero,
    (getLsbD_hitMask hnib _).mpr ⟨rel, hrel, rfl⟩, Bool.and_true] at hbit
  exact (ok.values_fit.look_eq_none _).mpr hbit

/-- The highest hit is the longest match in the node. -/
theorem TbNode.NodeOk.hits_log2 (ok : NodeOk h n) (hnib : nib < 16)
    (hits : n.internal &&& hitMask nib ≠ 0#32) :
    ∃ q v, (n.internal &&& hitMask nib).toNat.log2 = q ∧ n.valueAt q = some v ∧ q.log2 < 4
      ∧ lastSome (valuesAlong n nib) 4 = some (q.log2, v) := by
  -- the highest hit is the position of some length along the address
  have hbit := RankVec.getLsbD_log2 hits
  rw [BitVec.getLsbD_and, Bool.and_eq_true] at hbit
  obtain ⟨rel, hrel, hq⟩ := (getLsbD_hitMask hnib _).mp hbit.2
  obtain ⟨v, hv⟩ := Option.isSome_iff_exists.mp ((ok.fit.valueAt_isSome _).trans hbit.1)
  have hlt := nib_div_lt hnib hrel
  have hlow : 2 ^ rel ≤ 2 ^ rel + nib / 2 ^ (4 - rel) := Nat.le_add_right _ _
  -- and that length is read off the position by a second logarithm
  have hlog : (n.internal &&& hitMask nib).toNat.log2.log2 = rel := by
    have hpos := Nat.two_pow_pos rel
    rw [hq, Nat.log2_eq_iff (by omega), Nat.pow_succ]
    omega
  refine ⟨_, v, rfl, hv, by omega, ?_⟩
  rw [hlog, lastSome_eq_some]
  refine ⟨hrel, by rw [valuesAlong, ← hq, hv], ?_⟩
  intro j hj hj4
  -- a longer match would be a higher hit
  have hpow : 2 ^ (rel + 1) ≤ 2 ^ j := Nat.pow_le_pow_right Nat.two_pos hj
  have hge : 2 ^ j ≤ 2 ^ j + nib / 2 ^ (4 - j) := Nat.le_add_right _ _
  rw [Nat.pow_succ] at hpow
  have habove := RankVec.getLsbD_above_log2 (b := n.internal &&& hitMask nib)
    (i := 2 ^ j + nib / 2 ^ (4 - j)) (by omega)
  rw [BitVec.getLsbD_and, (getLsbD_hitMask hnib _).mpr ⟨j, hj4, rfl⟩, Bool.and_true] at habove
  exact (ok.values_fit.look_eq_none _).mpr habove

end Hits

/-! ## The search -/

/-- The value of the network of length `4 hop + i` that covers an address, as
    seen from the node at stride index `hop` on the way. -/
def valueOfLen (n : TbNode V) (bits a hop i : Nat) : Option V :=
  n.lookup (pathFrom bits a hop (i / 4)) (posAt bits a (hop + i / 4) (i % 4))

theorem valueOfLen_lt (n : TbNode V) (bits a hop : Nat) {i : Nat} (hi : i < 4) :
    valueOfLen n bits a hop i = valuesAlong n (nib bits a hop) i := by
  rw [valueOfLen, Nat.div_eq_of_lt hi, Nat.mod_eq_of_lt hi]
  rfl

/-- Lengths beyond the stride of a node are looked up in its child. -/
theorem valueOfLen_add (n : TbNode V) (bits a hop i : Nat) :
    valueOfLen n bits a hop (4 + i)
      = (n.childAt (nib bits a hop)).bind fun c => valueOfLen c bits a (hop + 1) i := by
  rw [valueOfLen, show (4 + i) / 4 = i / 4 + 1 by omega, show (4 + i) % 4 = i % 4 by omega,
    pathFrom_succ, lookup, Descent.hops_eq]
  rfl

/-- What the loop keeps in `best`: the value and the length. -/
def asBest (base : Nat) (found : Option (Nat × V)) : Option (V × Nat) :=
  found.map fun (i, v) => (v, base + i)

/-- One turn of the loop takes the longest match of the node. -/
theorem longestMatchNode_ok (hs : Shape (h + 1) n) (hbits : bits ≤ 128)
    (hstr : 4 * (hop + (h + 1)) = bits) (a : Nat) (best : Option (V × Nat)) :
    longestMatchNode n (nib bits a hop) hop best
      = .ok ((asBest (4 * hop) (lastSome (valueOfLen n bits a hop) 4)).or best) := by
  have hnib := nib_lt bits a hop
  obtain ⟨h1, h2, h3⟩ := or_positions hnib
  rw [longestMatchNode, setBit_ok _ (by decide), ok_bind, setBit_ok _ (by omega), ok_bind,
    setBit_ok _ (by omega), ok_bind, setBit_ok _ (by omega), ok_bind,
    lastSome_congr fun i hi => valueOfLen_lt n bits a hop hi]
  change (if (n.internal &&& hitMask (nib bits a hop) != 0#32) = true then _ else _) = _
  split
  case isTrue hne =>
    obtain ⟨q, v, hq, hv, hlog, hlast⟩ := hs.nodeOk.hits_log2 hnib (by simpa using hne)
    obtain ⟨hpos, hlt, -⟩ := hs.nodeOk.valueAt_pos hv
    change (checkedSub 31 (leadingZeros (n.internal &&& hitMask (nib bits a hop))) >>= _) = _
    rw [hlast, highBit_ok (by simpa using hne), hq, ok_bind, relLen_ok hpos hlt, ok_bind,
      rank_ok _ (by omega), ok_bind, vecGet_ok (valueAt_get hv), ok_bind,
      checkedMul_ok (by rw [STRIDE]; omega), ok_bind, checkedAdd_ok (by rw [STRIDE]; omega),
      ok_bind, pure_eq_ok, STRIDE, Nat.mul_comm hop 4]
    rfl
  case isFalse heq =>
    rw [hs.nodeOk.hits_zero hnib (by simpa using heq)]
    rfl

/-- After the last stride, only a full-length prefix is left to match. -/
theorem last_ok (hs : Shape 0 n) (hstr : 4 * hop = bits) (a : Nat) (best : Option (V × Nat)) :
    longestMatchLast bits (bits / 4) n best hop
      = .ok ((asBest (4 * hop) (lastSome (valueOfLen n bits a hop) 1)).or best) := by
  -- without left over bits the position is 1
  have hone : valueOfLen n bits a hop 0 = n.valueAt 1 := by
    have hzero : nib bits a hop / 2 ^ (4 - 0) = 0 := Nat.div_eq_of_lt (nib_lt _ _ _)
    rw [valueOfLen_lt n bits a hop (by decide), valuesAlong, hzero]
    rfl
  rw [longestMatchLast, if_pos (by simp; omega),
    hs.nodeOk.fit.testBit_internal Nat.one_lt_ofNat, ok_bind]
  cases hv : n.valueAt 1 with
  | none =>
      rw [hv] at hone
      rw [lastSome_succ_of_none hone]
      rfl
  | some v =>
      rw [hv] at hone
      rw [Option.isSome_some, if_pos rfl, rank_ok _ (by decide), ok_bind,
        vecGet_ok (valueAt_get hv), ok_bind, lastSome_succ_of_some hone, pure_eq_ok, ← hstr]
      rfl

/-- The search over the lengths in and below a node goes through the child, and
    then through the node itself. -/
theorem asBest_or (n : TbNode V) (bits a hop k : Nat) (best : Option (V × Nat)) :
    (asBest (4 * hop) (lastSome (valueOfLen n bits a hop) (4 + k))).or best
      = (asBest (4 * (hop + 1)) (lastSome (fun i =>
          (n.childAt (nib bits a hop)).bind fun c => valueOfLen c bits a (hop + 1) i) k)).or
        ((asBest (4 * hop) (lastSome (valueOfLen n bits a hop) 4)).or best) := by
  rw [lastSome_add, lastSome_congr fun i _ => valueOfLen_add n bits a hop i]
  cases lastSome (fun i =>
      (n.childAt (nib bits a hop)).bind fun c => valueOfLen c bits a (hop + 1) i) k with
  | none => rfl
  | some found =>
      obtain ⟨i, v⟩ := found
      have hlen : 4 * hop + (4 + i) = 4 * (hop + 1) + i := by omega
      simp only [asBest, Option.map_some, Option.some_or, hlen]

/-- **The walk finds the last hit of the search over all lengths.** -/
theorem walk_ok (addr : U128) (hs : Shape h n) (hbits : bits ≤ 128) (hstr : 4 * (hop + h) = bits)
    (best : Option (V × Nat)) :
    (do let (node, best, hop) ← longestMatchLoop addr bits h n best hop
        longestMatchLast bits (bits / 4) node best hop)
      = .ok ((asBest (4 * hop)
          (lastSome (valueOfLen n bits addr.toNat hop) (4 * h + 1))).or best) := by
  induction h generalizing hop n best with
  | zero => exact last_ok hs hstr addr.toNat best
  | succ h ih =>
      have hnib := nib_lt bits addr.toNat hop
      rw [longestMatchLoop, nibble_ok hbits (by omega), ok_bind,
        longestMatchNode_ok hs hbits hstr addr.toNat, ok_bind,
        hs.nodeOk.fit.testBit_external (by omega), ok_bind,
        show 4 * (h + 1) + 1 = 4 + (4 * h + 1) by omega, asBest_or]
      cases hc : n.childAt (nib bits addr.toNat hop) with
      | none =>
          -- the loop breaks here, and no longer prefix is stored further down
          have hnone : lastSome (fun _ => (none : Option V)) (4 * h + 1) = none :=
            lastSome_eq_none.mpr fun _ _ => rfl
          have hstop : hop ≠ bits / 4 := by omega
          rw [Option.isSome_none]
          simp only [Bool.not_false, ↓reduceIte, pure_eq_ok, ok_bind, longestMatchLast,
            beq_iff_eq, hstop, Option.bind_none, hnone]
          rfl
      | some c =>
          rw [Option.isSome_some, if_neg (by decide), rank_ok _ (by omega), ok_bind,
            vecGet_ok (childAt_get hc), ok_bind, checkedAdd_ok (by omega), ok_bind,
            ih (hs.child hc) (by omega)]
          rfl

/-! ## The table -/

section Table

variable {A : Type} [IpAddress A]

/-- The prefix that is built from an address and a length is that of the network
    of this length that covers the address. -/
theorem masked_new {addr : A} {len : Nat} {pfx : IpPrefix A}
    (hnew : IpAddress.new addr len = some pfx) (hlen : len ≤ IpAddress.bits A) :
    IpAddress.masked pfx = ofNetwork (Network.ofAddr (bits_le A) (IpAddress.toU128 addr)
      (IpAddress.toU128_lt addr) len hlen) := by
  have hip := IpAddress.ip_new _ _ _ hnew
  have hmask := IpAddress.mask_new _ _ _ hnew
  rw [masked_eq]
  congr 1
  apply Network.ext_top
  · rw [network_len, hmask]
    rfl
  · rw [Network.top, network_addr, network_len, hip, hmask, Network.ofAddr, Network.ofTop_top,
      Network.topBits, Network.topBits, BitVec.toNat_shiftLeft, BitVec.toNat_ushiftRight,
      Nat.shiftRight_eq_div_pow, Nat.shiftLeft_eq,
      Nat.mod_eq_of_lt (Nat.lt_of_le_of_lt (Nat.div_mul_le_self _ _) (BitVec.isLt _)),
      Nat.mul_div_cancel _ (Nat.two_pow_pos _)]

end Table

namespace RouteMap

variable {A : Type} [IpAddress A] {t : RouteMap A V} {m : Fib (IpAddress.bits A) V}

theorem Holds.valueOfLen_eq (h : Holds t m) {a : U128}
    (ha : a.toNat < 2 ^ IpAddress.bits A) {len : Nat} (hlen : len ≤ IpAddress.bits A) :
    valueOfLen t.root (IpAddress.bits A) a.toNat 0 len = Fib.atLen (bits_le A) m a ha len := by
  rw [Fib.atLen_of_le _ _ hlen, ← h.lookup_eq, Network.path_ofAddr,
    Network.pos_ofAddr (bits_le A) (stride_dvd A), valueOfLen, Nat.zero_add]

/-- `longest_match_impl` finds the longest match. -/
theorem Holds.longestMatchImpl (h : Holds t m) {a : U128}
    (ha : a.toNat < 2 ^ IpAddress.bits A) :
    t.longestMatchImpl a
      = .ok ((Fib.longest (bits_le A) m a ha).map fun (len, v) => (v, len)) := by
  have hdvd := stride_dvd A
  have hstr : 4 * (0 + levels A) = IpAddress.bits A := by
    rw [levels]
    omega
  have hwalk := walk_ok a h.shape (bits_le A) hstr none
  rw [show 4 * levels A + 1 = IpAddress.bits A + 1 by rw [levels]; omega,
    lastSome_congr fun len hlen => h.valueOfLen_eq ha (Nat.le_of_lt_succ hlen)] at hwalk
  rw [RouteMap.longestMatchImpl, Fib.longest]
  refine hwalk.trans ?_
  simp only [asBest, Option.or_none, Nat.mul_zero, Nat.zero_add]

/-- The entry of a best match is the prefix of its length that covers the address. -/
theorem longestMatchEntry_of_impl {addr : A} {v : V} {len : Nat} (hlen : len ≤ IpAddress.bits A)
    (himpl : t.longestMatchImpl (IpAddress.toU128 addr) = .ok (some (v, len))) :
    t.longestMatchEntry addr = .ok (some (ofNetwork (Network.ofAddr (bits_le A)
      (IpAddress.toU128 addr) (IpAddress.toU128_lt addr) len hlen), v)) := by
  have hbits := bits_le A
  obtain ⟨pfx, hpfx⟩ := Option.isSome_iff_exists.mp ((IpAddress.new_isSome addr len).mpr hlen)
  rw [RouteMap.longestMatchEntry, himpl, ← masked_new hpfx hlen]
  change (fromU128 (IpAddress.toU128 addr) >>= _) = _
  rw [fromU128_ok (IpAddress.toU128_lt addr), IpAddress.fromU128_toU128, ok_bind,
    asU8_ok (by omega), ok_bind, newPrefix_ok hpfx, ok_bind, pure_eq_ok]

/-- **The longest match query** returns the entry the address matches, and
    `longest_match` its value. -/
theorem Holds.longestMatchEntry (h : Holds t m) (addr : A) :
    ∃ found, t.longestMatchEntry addr = .ok found
      ∧ t.longestMatch addr = .ok (found.map Prod.snd)
      ∧ (∀ pfx v, found = some (pfx, v) ↔
          IpAddress.masked pfx = pfx ∧ m.IsLongest (IpAddress.toU128 addr) (network pfx) v)
      ∧ (found = none ↔ m.NoMatch (IpAddress.toU128 addr)) := by
  have ha := IpAddress.toU128_lt addr
  have himpl := h.longestMatchImpl ha
  cases hfound : Fib.longest (bits_le A) m (IpAddress.toU128 addr) ha with
  | none =>
      rw [hfound] at himpl
      have hnone := (Fib.longest_eq_none (bits_le A) ha).mp hfound
      refine ⟨none, ?_, ?_, ?_, by simp [hnone]⟩
      · exact congrArg (fun x => x >>= _) himpl
      · exact congrArg (fun x => x >>= _) himpl
      · intro pfx v
        simp only [reduceCtorEq, false_iff]
        rintro ⟨-, hlong⟩
        have hentry := hlong.entry
        rw [hnone _ hlong.covers] at hentry
        cases hentry
  | some found =>
      obtain ⟨len, v⟩ := found
      rw [hfound] at himpl
      obtain ⟨n, hn, hlong⟩ := (Fib.longest_eq_some (bits_le A) ha).mp hfound
      have hlen : len ≤ IpAddress.bits A := hn ▸ n.len_le
      have hnet : n = Network.ofAddr (bits_le A) (IpAddress.toU128 addr) ha len hlen := by
        subst hn
        exact (Network.covers_iff (bits_le A) ha n).mp hlong.covers
      refine ⟨some (ofNetwork n, v), ?_, ?_, ?_, ?_⟩
      · rw [longestMatchEntry_of_impl hlen himpl, ← hnet]
      · exact congrArg (fun x => x >>= _) himpl
      · intro pfx' v'
        simp only [Option.some.injEq, Prod.mk.injEq]
        refine ⟨?_, ?_⟩
        · rintro ⟨rfl, rfl⟩
          exact ⟨masked_ofNetwork n, by rwa [network_ofNetwork]⟩
        · rintro ⟨hmask, hlong'⟩
          obtain ⟨hnn, hvv⟩ := hlong.unique hlong'
          exact ⟨by rw [hnn]; exact (masked_iff pfx').mp hmask, hvv⟩
      · simp only [reduceCtorEq, false_iff]
        intro hno
        have hentry := hlong.entry
        rw [hno n hlong.covers] at hentry
        cases hentry

theorem Represents.longestMatchImpl (h : Represents t m) {a : U128}
    (ha : a.toNat < 2 ^ IpAddress.bits A) :
    t.longestMatchImpl a
      = .ok ((Fib.longest (bits_le A) m a ha).map fun (len, v) => (v, len)) :=
  h.holds.longestMatchImpl ha

theorem Represents.longestMatchEntry (h : Represents t m) (addr : A) :
    ∃ found, t.longestMatchEntry addr = .ok found
      ∧ t.longestMatch addr = .ok (found.map Prod.snd)
      ∧ (∀ pfx v, found = some (pfx, v) ↔
          IpAddress.masked pfx = pfx ∧ m.IsLongest (IpAddress.toU128 addr) (network pfx) v)
      ∧ (found = none ↔ m.NoMatch (IpAddress.toU128 addr)) := h.holds.longestMatchEntry addr

end RouteMap
end Routemap
