/-
  Routemap.Treebitmap.Ranges

  The lookups in the order of the addresses.  A network is a range of addresses, so
  from one address to the next the match changes only where an entry begins or has
  ended: written out as ranges of equal matches, a table has at most two bounds for
  each entry.
-/
import Routemap.Treebitmap.Plain

namespace Routemap

open History

/-! ## Networks as ranges -/

section Network

variable {bits : Nat}

/-- The number of addresses of a network. -/
def Network.size (n : Network bits) : Nat := 2 ^ (bits - n.len)

/-- A network covers the addresses of a range that starts with its own one. -/
theorem Network.covers_iff_range (n : Network bits) (a : U128) :
    n.Covers a ↔ n.addr.toNat ≤ a.toNat ∧ a.toNat < n.addr.toNat + n.size := by
  have hpos := Nat.two_pow_pos (bits - n.len)
  rw [Covers, topBits, Nat.div_eq_iff hpos, n.addr_eq, size]
  omega

/-- Two addresses in a row are in the same networks, but for those that begin or have
    ended at the second one. -/
theorem Network.covers_succ_iff {n : Network bits} {a b : U128} (hab : b.toNat = a.toNat + 1)
    (hfirst : b.toNat ≠ n.addr.toNat) (hlast : b.toNat ≠ n.addr.toNat + n.size) :
    n.Covers a ↔ n.Covers b := by
  rw [covers_iff_range, covers_iff_range]
  omega

variable {V : Type} {m : Fib bits V} {a b : U128}

/-- Addresses in the same entries have the same match. -/
theorem Fib.IsLongest.move {n : Network bits} {v : V}
    (hsame : ∀ k w, m k = some w → (k.Covers a ↔ k.Covers b)) (h : m.IsLongest a n v) :
    m.IsLongest b n v where
  entry := h.entry
  covers := (hsame n v h.entry).mp h.covers
  longest k w hk hcov := h.longest k w hk ((hsame k w hk).mpr hcov)

theorem Fib.NoMatch.move (hsame : ∀ k w, m k = some w → (k.Covers a ↔ k.Covers b))
    (h : m.NoMatch a) : m.NoMatch b := by
  intro k hk
  by_contra hne
  obtain ⟨w, hw⟩ := Option.ne_none_iff_exists'.mp hne
  exact hne (h k ((hsame k w hw).mpr hk))

end Network

/-! ## Ranges of equal matches -/

variable {A V : Type} [IpAddress A]

/-- The address with number `x`. -/
def addrOf (A : Type) [IpAddress A] (x : Nat) : A := IpAddress.fromU128 (BitVec.ofNat 128 x)

theorem toNat_addrOf {x : Nat} (hx : x < 2 ^ IpAddress.bits A) :
    (IpAddress.toU128 (addrOf A x)).toNat = x := by
  have hbits : x < 2 ^ 128 :=
    Nat.lt_of_lt_of_le hx (Nat.pow_le_pow_right Nat.two_pos (bits_le A))
  have hnat : (BitVec.ofNat 128 x).toNat = x := by
    rw [BitVec.toNat_ofNat, Nat.mod_eq_of_lt hbits]
  rw [addrOf, IpAddress.toU128_fromU128 _ (by rwa [hnat]), hnat]

/-- The numbers of the addresses at which the lookup differs from that of the address
    before. -/
def RouteMap.bounds (t : RouteMap A V) : Set Nat :=
  {x | 0 < x ∧ x < 2 ^ IpAddress.bits A
    ∧ t.longestMatchEntry (addrOf A (x - 1)) ≠ t.longestMatchEntry (addrOf A x)}

/-- The first address of a prefix, and the one after the last. -/
def ends (pfx : IpPrefix A) : List Nat :=
  [(network pfx).addr.toNat, (network pfx).addr.toNat + 2 ^ (IpAddress.bits A - IpAddress.mask pfx)]

/-- **Few ranges.**  After every run, in the order of the addresses, the lookup changes
    only at the first address of an entry or after its last one; so it is constant on
    at most `2 * len + 1` ranges. -/
theorem lookup_ranges (calls : List (Call A V)) :
    ∃ t replies entries, runCalls calls = .ok (t, replies)
      ∧ t.iter.collect = .ok entries
      ∧ (∀ x ∈ t.bounds, ∃ e ∈ entries, x ∈ ends e.1)
      ∧ t.bounds.Finite ∧ t.bounds.ncard ≤ 2 * t.len := by
  obtain ⟨t, replies, m, hrun, h, -, -⟩ := run_live calls
  obtain ⟨es, hcollect, hlist, -, -⟩ := h.collect
  have hends : ∀ x ∈ t.bounds, ∃ e ∈ es, x ∈ ends e.1 := by
    rintro x ⟨hpos, hx, hdiff⟩
    by_contra hnone
    have hsucc : (IpAddress.toU128 (addrOf A x)).toNat
        = (IpAddress.toU128 (addrOf A (x - 1))).toNat + 1 := by
      rw [toNat_addrOf hx, toNat_addrOf (Nat.lt_of_le_of_lt (Nat.sub_le _ _) hx),
        Nat.sub_add_cancel hpos]
    -- no entry tells the two addresses apart
    have hsame : ∀ k w, m k = some w → (k.Covers (IpAddress.toU128 (addrOf A (x - 1)))
        ↔ k.Covers (IpAddress.toU128 (addrOf A x))) := by
      intro k w hk
      have hmem : (ofNetwork k, w) ∈ es :=
        (hlist.mem_iff _ w).mpr ⟨masked_ofNetwork k, by rwa [network_ofNetwork]⟩
      have hout : x ∉ ends (ofNetwork k : IpPrefix A) := fun hin => hnone ⟨_, hmem, hin⟩
      rw [ends, List.mem_pair, network_ofNetwork, mask_ofNetwork, not_or] at hout
      refine Network.covers_succ_iff hsucc ?_ ?_
      · rw [toNat_addrOf hx]
        exact hout.1
      · rw [toNat_addrOf hx]
        exact hout.2
    obtain ⟨found, hlookup, -, hfound⟩ := h.found (addrOf A (x - 1))
    refine hdiff (hlookup.trans (h.eq_of_found ⟨?_, ?_⟩).symm)
    · intro pfx v heq
      obtain ⟨hmasked, hlong⟩ := hfound.isLongest pfx v heq
      exact ⟨hmasked, hlong.move hsame⟩
    · exact fun heq => (hfound.noMatch heq).move hsame
  have hsub : t.bounds ⊆ ((es.flatMap fun e => ends e.1).toFinset : Set Nat) := by
    intro x hx
    rw [Finset.mem_coe, List.mem_toFinset, List.mem_flatMap]
    exact hends x hx
  refine ⟨t, replies, es, hrun, hcollect, hends, (Finset.finite_toSet _).subset hsub, ?_⟩
  have hle := Set.ncard_le_ncard hsub (Finset.finite_toSet _)
  rw [Set.ncard_coe_finset] at hle
  refine (hle.trans (List.toFinset_card_le _)).trans_eq ?_
  rw [List.length_flatMap, RouteMap.len, h.count_eq, ← hlist.length_eq]
  simp [ends, Nat.mul_comm]

end Routemap
