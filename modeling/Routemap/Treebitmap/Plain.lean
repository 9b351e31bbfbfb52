/-
  Routemap.Treebitmap.Plain

  Three plain ways to find the longest match, each the same as the lookup of the
  table: to ask `get` for every length of the address, the longest first; to go
  through the iterator and keep the last entry that covers the address; and the
  walk down the tree with four branches at each node in place of one masked bitmap.
-/
import Routemap.Treebitmap.Order

namespace Routemap

open History TbNode

variable {A V : Type} [IpAddress A]

/-! ## Asking for each length -/

/-- Ask for the prefixes of an address by their lengths, from below `n` down: what a
    map with `get` alone takes for a longest match. -/
def RouteMap.probe (t : RouteMap A V) (addr : A) : Nat → M (Option (IpPrefix A × V))
  | 0 => pure none
  | len + 1 => do
    let pfx ← newPrefix addr len
    match ← t.get pfx with
    | some value => pure (some (IpAddress.masked pfx, value))
    | none => t.probe addr len

section Probe

variable {t : RouteMap A V} {m : Fib (IpAddress.bits A) V}

/-- The network of an address and a length. -/
theorem network_new {addr : A} {len : Nat} {pfx : IpPrefix A}
    (hnew : IpAddress.new addr len = some pfx) (hlen : len ≤ IpAddress.bits A) :
    network pfx = Network.ofAddr (bits_le A) (IpAddress.toU128 addr) (IpAddress.toU128_lt addr)
      len hlen := by
  rw [← network_masked, masked_new hnew hlen, network_ofNetwork]

/-- What a lookup of an address finds in a map: the entry the address matches, in masked
    form, or nothing where there is none. -/
structure Found (m : Fib (IpAddress.bits A) V) (addr : A) (found : Option (IpPrefix A × V)) :
    Prop where
  isLongest : ∀ pfx v, found = some (pfx, v) → IpAddress.masked pfx = pfx
    ∧ m.IsLongest (IpAddress.toU128 addr) (network pfx) v
  noMatch : found = none → m.NoMatch (IpAddress.toU128 addr)

theorem found_some {addr : A} {e : IpPrefix A × V} (hmasked : IpAddress.masked e.1 = e.1)
    (hlong : m.IsLongest (IpAddress.toU128 addr) (network e.1) e.2) :
    Found m addr (some e) where
  isLongest pfx v heq := by
    cases heq
    exact ⟨hmasked, hlong⟩
  noMatch heq := by cases heq

/-- A lookup sees the networks that cover its address. -/
theorem Found.congr {m' : Fib (IpAddress.bits A) V} {addr : A}
    {found : Option (IpPrefix A × V)} (h : Found m addr found)
    (hsame : ∀ n : Network (IpAddress.bits A), n.Covers (IpAddress.toU128 addr) → m n = m' n) :
    Found m' addr found where
  isLongest pfx v hfound :=
    ⟨(h.isLongest pfx v hfound).1, (h.isLongest pfx v hfound).2.congr hsame⟩
  noMatch hfound := (Fib.noMatch_congr hsame).mp (h.noMatch hfound)

theorem RouteMap.Represents.found (h : Represents t m) (addr : A) :
    ∃ found, t.longestMatchEntry addr = .ok found
      ∧ t.longestMatch addr = .ok (found.map Prod.snd) ∧ Found m addr found := by
  obtain ⟨found, hrun, hvalue, hsome, hnone⟩ := h.longestMatchEntry addr
  exact ⟨found, hrun, hvalue, fun pfx v => (hsome pfx v).mp, hnone.mp⟩

/-- What the lookup returns is told by the map. -/
theorem RouteMap.Represents.eq_of_found (h : Represents t m) {addr : A}
    {found : Option (IpPrefix A × V)} (hfound : Found m addr found) :
    t.longestMatchEntry addr = .ok found := by
  obtain ⟨found', hrun, -, hsome, hnone⟩ := h.longestMatchEntry addr
  rw [hrun]
  congr 1
  cases found with
  | none => exact hnone.mpr (hfound.noMatch rfl)
  | some e => exact (hsome e.1 e.2).mpr (hfound.isLongest e.1 e.2 rfl)

/-- The probe finds the longest match among the entries of the lengths it asks for. -/
theorem RouteMap.Represents.probe (h : Represents t m) (addr : A) {n : Nat}
    (hn : n ≤ IpAddress.bits A + 1) :
    ∃ found, t.probe addr n = .ok found ∧ Found (m.below n) addr found := by
  induction n with
  | zero => exact ⟨none, rfl, by simp, fun _ k _ => Fib.below_of_le (Nat.zero_le _)⟩
  | succ len ih =>
      have hlen : len ≤ IpAddress.bits A := Nat.le_of_succ_le_succ hn
      obtain ⟨pfx, hpfx⟩ := Option.isSome_iff_exists.mp ((IpAddress.new_isSome addr len).mpr hlen)
      have hnet := network_new hpfx hlen
      have hplen : (network pfx).len = len := by
        rw [hnet]
        rfl
      have hcov : (network pfx).Covers (IpAddress.toU128 addr) := by
        rw [hnet]
        exact Fib.covers_ofAddr (bits_le A) (IpAddress.toU128_lt addr) hlen
      rw [RouteMap.probe, newPrefix_ok hpfx, ok_bind, h.get]
      cases hm : m (network pfx) with
      | some v =>
          -- a hit: the other lengths to ask for are shorter
          refine ⟨_, rfl, found_some (masked_masked pfx) ?_⟩
          rw [network_masked]
          refine ⟨?_, hcov, ?_⟩
          · rw [Fib.below_of_lt (by omega), hm]
          · intro k w hw _
            by_contra hgt
            rw [Fib.below_of_le (by omega)] at hw
            cases hw
      | none =>
          -- of this length no other network covers the address
          have hsame : ∀ k : Network (IpAddress.bits A), k.Covers (IpAddress.toU128 addr) →
              m.below len k = m.below (len + 1) k := by
            intro k hk
            rcases Nat.lt_trichotomy k.len len with hlt | heq | hgt
            · rw [Fib.below_of_lt hlt, Fib.below_of_lt (Nat.lt_succ_of_lt hlt)]
            · rw [Fib.below_of_le heq.ge, Fib.below_of_lt (by omega),
                Fib.eq_of_covers hk hcov (heq.trans hplen.symm), hm]
            · rw [Fib.below_of_le (Nat.le_of_lt hgt), Fib.below_of_le hgt]
          obtain ⟨found, hrun, hfound⟩ := ih (Nat.le_of_succ_le hn)
          exact ⟨found, hrun, hfound.congr hsame⟩

end Probe

/-- **Length by length.**  After every run, the lookup of an address returns what asking
    `get` for its prefixes returns, from the longest down. -/
theorem lookup_eq_probe (calls : List (Call A V)) (addr : A) :
    ∃ t replies, runCalls calls = .ok (t, replies)
      ∧ t.longestMatchEntry addr = t.probe addr (IpAddress.bits A + 1) := by
  obtain ⟨t, replies, m, hrun, h, -, -⟩ := run_live calls
  obtain ⟨found, hprobe, hfound⟩ := h.probe addr (Nat.le_refl _)
  rw [Fib.below_all (Nat.lt_succ_self _)] at hfound
  refine ⟨t, replies, hrun, ?_⟩
  rw [hprobe]
  exact h.eq_of_found hfound

/-! ## Going through the entries -/

/-- Whether a prefix covers an address. -/
def covers (addr : A) (pfx : IpPrefix A) : Bool :=
  decide ((network pfx).Covers (IpAddress.toU128 addr))

section Scan

variable {m : Fib (IpAddress.bits A) V} {es : List (IpPrefix A × V)}

/-- Of two entries that cover an address, the shorter one is listed first. -/
theorem prefixKey_lt_of_covers {addr : A} {pfx pfx' : IpPrefix A} (hcov : covers addr pfx = true)
    (hcov' : covers addr pfx' = true) (hlen : (network pfx).len < (network pfx').len) :
    prefixKey pfx < prefixKey pfx' := by
  refine Network.key_lt_of_covers ?_ hlen
  exact Network.covers_of_covers (of_decide_eq_true hcov) (of_decide_eq_true hcov')
    (Nat.le_of_lt hlen)

theorem Listing.last_covering (hlist : Listing m es) (addr : A) {pfx : IpPrefix A} {v : V}
    (hlast : (es.filter fun e => covers addr e.1).getLast? = some (pfx, v)) :
    IpAddress.masked pfx = pfx ∧ m.IsLongest (IpAddress.toU128 addr) (network pfx) v := by
  obtain ⟨⟨hmem, hcov⟩, hmax⟩ :=
    (LastSome.getLast?_filter_eq_some (fun _ _ => List.lt_asymm) hlist.sorted).mp hlast
  obtain ⟨hmasked, hv⟩ := (hlist.mem_iff pfx v).mp hmem
  refine ⟨hmasked, hv, of_decide_eq_true hcov, ?_⟩
  intro k w hw hk
  have hkmem : (ofNetwork k, w) ∈ es :=
    (hlist.mem_iff _ w).mpr ⟨masked_ofNetwork k, by rwa [network_ofNetwork]⟩
  have hkcov : covers addr (ofNetwork k) = true := decide_eq_true (by rwa [network_ofNetwork])
  by_contra hgt
  have hlt : prefixKey pfx < prefixKey (ofNetwork k) := by
    refine prefixKey_lt_of_covers hcov hkcov ?_
    rw [network_ofNetwork]
    exact Nat.lt_of_not_le hgt
  rcases hmax _ hkmem hkcov with heq | hbefore
  · rw [(Prod.mk.inj heq).1] at hlt
    exact List.lt_irrefl _ hlt
  · exact List.lt_asymm hlt hbefore

end Scan

/-- **Entry by entry.**  After every run, the lookup of an address returns the last of
    the entries of the iterator that cover it, and these come in increasing length. -/
theorem lookup_eq_scan (calls : List (Call A V)) (addr : A) :
    ∃ t replies entries, runCalls calls = .ok (t, replies)
      ∧ t.iter.collect = .ok entries
      ∧ t.longestMatchEntry addr = .ok (entries.filter fun e => covers addr e.1).getLast?
      ∧ (entries.filter fun e => covers addr e.1).Pairwise fun e e' =>
          IpAddress.mask e.1 < IpAddress.mask e'.1 := by
  obtain ⟨t, replies, m, hrun, h, -, -⟩ := run_live calls
  obtain ⟨es, hcollect, hlist, -, -⟩ := h.collect
  refine ⟨t, replies, es, hrun, hcollect, ?_, ?_⟩
  · refine h.eq_of_found ⟨?_, ?_⟩
    · exact fun pfx v hfound => hlist.last_covering addr hfound
    · intro hnone k hk
      by_contra hne
      obtain ⟨w, hw⟩ := Option.ne_none_iff_exists'.mp hne
      have hkmem : (ofNetwork k, w) ∈ es :=
        (hlist.mem_iff _ w).mpr ⟨masked_ofNetwork k, by rwa [network_ofNetwork]⟩
      have hkcov : covers addr (ofNetwork k) = true := decide_eq_true (by rwa [network_ofNetwork])
      rw [List.getLast?_eq_none_iff, List.filter_eq_nil_iff] at hnone
      exact hnone _ hkmem hkcov
  · refine (hlist.sorted.filter _).imp_of_mem ?_
    intro e e' he he' hlt
    have hcov := (List.mem_filter.mp he).2
    have hcov' := (List.mem_filter.mp he').2
    rw [← network_len, ← network_len]
    -- a longer one would come later, and of one length there is only one
    rcases Nat.lt_trichotomy (network e.1).len (network e'.1).len with hless | heq | hmore
    · exact hless
    · have hnet := Fib.eq_of_covers (of_decide_eq_true hcov) (of_decide_eq_true hcov') heq
      rw [prefixKey, prefixKey, hnet] at hlt
      exact absurd hlt (List.lt_irrefl _)
    · exact absurd hlt (List.lt_asymm (prefixKey_lt_of_covers hcov' hcov hmore))

/-! ## Four branches at each node -/

/-- One branch at a node on the way along an address: the prefix with `relLen` bits
    left over, if the node stores it, or else the best match so far. -/
def branchNode (node : TbNode V) (nib hop : Nat) (best : Option (V × Nat)) (relLen : Nat) :
    M (Option (V × Nat)) := do
  let one ← shiftAmount 32 relLen
  let shift ← shiftAmount 32 (← checkedSub STRIDE relLen)
  let bpos := 1 <<< one ||| nib >>> shift
  if ← testBit node.internal bpos then
    let value ← vecGet node.values (← rank node.internal bpos)
    let len ← checkedAdd (← checkedMul hop STRIDE) relLen
    pure (some (value, len))
  else pure best

/-- The branches one after the other, from the shortest prefix to the longest. -/
def branchesNode (node : TbNode V) (nib hop : Nat) (best : Option (V × Nat)) :
    M (Option (V × Nat)) := do
  let best ← branchNode node nib hop best 0
  let best ← branchNode node nib hop best 1
  let best ← branchNode node nib hop best 2
  branchNode node nib hop best 3

/-- `longestMatchLoop` with the branches at each node. -/
def branchesLoop (addr : U128) (addrBits : Nat) :
    Nat → TbNode V → Option (V × Nat) → Nat → M (TbNode V × Option (V × Nat) × Nat)
  | 0, node, best, hop => pure (node, best, hop)
  | stridesLeft + 1, node, best, hop => do
    let nib ← nibble addr addrBits hop
    let best ← branchesNode node nib hop best
    if !(← testBit node.external nib) then pure (node, best, hop)
    else
      let child ← vecGet node.children (← rank node.external nib)
      let hop ← checkedAdd hop 1
      branchesLoop addr addrBits stridesLeft child best hop

/-- `longestMatchImpl` with the branches at each node. -/
def RouteMap.longestMatchBranches (t : RouteMap A V) (addr : U128) : M (Option (V × Nat)) := do
  let addrBits := IpAddress.bits A
  let totalStrides := addrBits / STRIDE
  let (node, best, hop) ← branchesLoop addr addrBits totalStrides t.root none 0
  longestMatchLast addrBits totalStrides node best hop

section Branches

variable {h hop bits : Nat} {n : TbNode V}

/-- A branch reads the position of its length. -/
theorem branchNode_ok (hs : Shape (h + 1) n) (hbits : bits ≤ 128)
    (hstr : 4 * (hop + (h + 1)) = bits) (a : Nat) (best : Option (V × Nat)) {rel : Nat}
    (hrel : rel < 4) :
    branchNode n (nib bits a hop) hop best rel
      = .ok (((valueOfLen n bits a hop rel).map fun v => (v, 4 * hop + rel)).or best) := by
  have hnib := nib_lt bits a hop
  have hlt : posAt bits a hop rel < 2 ^ (rel + 1) := posAt_lt hrel
  have hpow : 2 ^ (rel + 1) ≤ 2 ^ 4 := Nat.pow_le_pow_right Nat.two_pos (by omega)
  have hpos : 1 <<< rel ||| nib bits a hop >>> (STRIDE - rel) = posAt bits a hop rel := by
    rw [Nat.shiftLeft_eq, Nat.one_mul]
    exact or_shift hnib rel hrel
  rw [branchNode, shiftAmount_ok (by omega), ok_bind,
    checkedSub_ok (show rel ≤ STRIDE by rw [STRIDE]; omega), ok_bind,
    shiftAmount_ok (show STRIDE - rel < 32 by rw [STRIDE]; omega), ok_bind]
  dsimp only
  rw [hpos, hs.nodeOk.fit.testBit_internal (by omega), ok_bind, valueOfLen_lt n bits a hop hrel,
    valuesAlong, ← posAt]
  cases hv : n.valueAt (posAt bits a hop rel) with
  | none => rfl
  | some v =>
      rw [Option.isSome_some, if_pos rfl, rank_ok _ (by omega), ok_bind,
        vecGet_ok (valueAt_get hv), ok_bind, checkedMul_ok (by rw [STRIDE]; omega), ok_bind,
        checkedAdd_ok (by rw [STRIDE]; omega), ok_bind, pure_eq_ok, STRIDE, Nat.mul_comm hop 4]
      rfl

/-- The search over one more length is a branch taken last. -/
theorem asBest_lastSome_succ (base k : Nat) (f : Nat → Option V) (best : Option (V × Nat)) :
    (asBest base (LastSome.lastSome f (k + 1))).or best
      = ((f k).map fun v => (v, base + k)).or
        ((asBest base (LastSome.lastSome f k)).or best) := by
  cases hk : f k with
  | none =>
      rw [LastSome.lastSome_succ_of_none hk]
      rfl
  | some v =>
      rw [LastSome.lastSome_succ_of_some hk]
      rfl

/-- The four branches find what the masked bitmap does. -/
theorem branchesNode_ok (hs : Shape (h + 1) n) (hbits : bits ≤ 128)
    (hstr : 4 * (hop + (h + 1)) = bits) (a : Nat) (best : Option (V × Nat)) :
    branchesNode n (nib bits a hop) hop best = longestMatchNode n (nib bits a hop) hop best := by
  rw [longestMatchNode_ok hs hbits hstr, asBest_lastSome_succ, asBest_lastSome_succ,
    asBest_lastSome_succ, asBest_lastSome_succ, branchesNode,
    branchNode_ok hs hbits hstr a _ (by decide), ok_bind,
    branchNode_ok hs hbits hstr a _ (by decide), ok_bind,
    branchNode_ok hs hbits hstr a _ (by decide), ok_bind,
    branchNode_ok hs hbits hstr a _ (by decide)]
  rfl

theorem branchesLoop_eq (addr : U128) (hs : Shape h n) (hbits : bits ≤ 128)
    (hstr : 4 * (hop + h) = bits) (best : Option (V × Nat)) :
    branchesLoop addr bits h n best hop = longestMatchLoop addr bits h n best hop := by
  induction h generalizing hop n best with
  | zero => rfl
  | succ h ih =>
      have hnib := nib_lt bits addr.toNat hop
      rw [branchesLoop, longestMatchLoop, nibble_ok hbits (by omega), ok_bind, ok_bind,
        branchesNode_ok hs hbits hstr]
      refine bind_congr fun best => ?_
      rw [hs.nodeOk.fit.testBit_external (by omega), ok_bind, ok_bind]
      cases hc : n.childAt (nib bits addr.toNat hop) with
      | none => rfl
      | some c =>
          rw [Option.isSome_some, if_neg (by decide), if_neg (by decide), rank_ok _ (by omega),
            ok_bind, ok_bind, vecGet_ok (childAt_get hc), ok_bind, ok_bind,
            checkedAdd_ok (by omega), ok_bind, ok_bind]
          exact ih (hs.child hc) (by omega) best

end Branches

/-- **Branch by branch.**  On every well formed tree, empty nodes included, the walk with
    one masked bitmap at each node returns what the walk with four branches in a row
    returns. -/
theorem lookup_eq_branches (t : RouteMap A V) (hs : Shape (levels A) t.root) (addr : U128) :
    t.longestMatchImpl addr = t.longestMatchBranches addr := by
  have hdvd := stride_dvd A
  have hstr : 4 * (0 + levels A) = IpAddress.bits A := by
    rw [levels]
    omega
  have hloop := branchesLoop_eq addr hs (bits_le A) hstr (none : Option (V × Nat))
  exact congrArg (fun x => x >>= _) hloop.symm

/-- A table with a value at the root and an empty leaf below it. -/
def emptyChildTable : RouteMap Ipv4Addr Nat :=
  ⟨(TbNode.new.setValue 1 7).setChild 0 TbNode.new, 1⟩

theorem shape_emptyChildTable : Shape (levels Ipv4Addr) emptyChildTable.root := by
  have hvalue : Shape (levels Ipv4Addr) ((TbNode.new : TbNode Nat).insertPath [] 1 7) :=
    (shape_new _).insertPath ⟨Nat.zero_le _, by simp, by decide, by decide, by decide⟩ 7
  exact hvalue.setChild (by decide) (shape_new _)

/-- The lookup of `0.0.0.0` in `emptyChildTable` goes on to the empty leaf. -/
theorem lookup_eq_branches_emptyChild :
    emptyChildTable.longestMatchImpl 0#128 = emptyChildTable.longestMatchBranches 0#128 :=
  lookup_eq_branches emptyChildTable shape_emptyChildTable 0#128

end Routemap
