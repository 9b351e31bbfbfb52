/-
  Routemap.Treebitmap.Order

  The iteration of a table after a run: what it returns, and in which order.
-/
import Routemap.Treebitmap.Queries

namespace Routemap

open History

variable {A V : Type} [IpAddress A]

/-- **The iterator is sound and complete.**  After every run it returns masked
    prefixes only, each at most once, and exactly those that `get` finds, with the
    value `get` finds. -/
theorem iter_sound_complete (calls : List (Call A V)) :
    ∃ t replies entries, runCalls calls = .ok (t, replies)
      ∧ t.iter.collect = .ok entries
      ∧ (∀ pfx v, (pfx, v) ∈ entries → IpAddress.masked pfx = pfx)
      ∧ (∀ pfx v, IpAddress.masked pfx = pfx →
          ((pfx, v) ∈ entries ↔ t.get pfx = .ok (some v)))
      ∧ (entries.map Prod.fst).Nodup := by
  obtain ⟨t, replies, m, hrun, h, -, -⟩ := run_live calls
  obtain ⟨es, hcollect, hlist, -, -⟩ := h.collect
  refine ⟨t, replies, es, hrun, hcollect, ?_, ?_, hlist.nodup⟩
  · intro pfx v he
    exact ((hlist.mem_iff pfx v).mp he).1
  · intro pfx v hmasked
    rw [hlist.mem_iff, h.get, Except.ok.injEq]
    exact ⟨fun he => he.2, fun hv => ⟨hmasked, hv⟩⟩

/-! ## Covering prefixes -/

/-- The key of a network in the order of iteration. -/
def Network.key {bits : Nat} (n : Network bits) : List Nat :=
  orderKey (n.path, n.pos)

/-- A network comes before the longer ones it covers, whether they share its node
    or are stored below it. -/
theorem Network.key_lt_of_covers {bits : Nat} {n k : Network bits} (hcov : n.Covers k.addr)
    (hlen : n.len < k.len) : n.key < k.key := by
  have hkle := k.len_le
  have hpath : n.path = pathFrom bits k.addr.toNat 0 (n.len / 4) :=
    pathFrom_congr (k := n.len / 4) n.len_le (by omega) hcov.symm
  have hrel : n.len % 4 < 4 := Nat.mod_lt _ (Nat.succ_pos _)
  have hpos : posAt bits n.addr.toNat (n.len / 4) (n.len % 4) < 2 ^ (n.len % 4 + 1) :=
    posAt_lt hrel
  rw [← Network.pos] at hpos
  rcases Nat.lt_or_ge (n.len / 4) (k.len / 4) with hlt | hge
  · -- the next nibble of `k` stands where `n` has its position
    have hk : k.path = n.path ++ nib bits k.addr.toNat (n.len / 4)
        :: pathFrom bits k.addr.toNat (n.len / 4 + 1) (k.len / 4 - (n.len / 4 + 1)) := by
      have hsplit : k.len / 4 = n.len / 4 + (k.len / 4 - (n.len / 4 + 1) + 1) := by omega
      rw [hpath, Network.path, hsplit, pathFrom_append, pathFrom_succ, Nat.zero_add,
        show n.len / 4 + (k.len / 4 - (n.len / 4 + 1) + 1) - (n.len / 4 + 1)
          = k.len / 4 - (n.len / 4 + 1) by omega]
    have hlt16 : 2 ^ (n.len % 4 + 1) ≤ 2 ^ 4 := Nat.pow_le_pow_right Nat.two_pos (by omega)
    rw [Network.key, Network.key, orderKey, orderKey, hk, List.map_append, List.map_cons,
      List.append_assoc, List.cons_append]
    exact TbNode.append_cons_lt _ (by omega) _ _
  · -- the two are in one node
    have hk : k.path = n.path := by
      rw [hpath, Network.path, show k.len / 4 = n.len / 4 by omega]
    have hpow : 2 ^ (n.len % 4 + 1) ≤ 2 ^ (k.len % 4) :=
      Nat.pow_le_pow_right Nat.two_pos (by omega)
    have hkpos : 2 ^ (k.len % 4) ≤ k.pos := Nat.le_add_right _ _
    rw [Network.key, Network.key, orderKey, orderKey, hk]
    exact TbNode.append_cons_lt _ (show n.pos < k.pos by omega) [] []

/-- **Iteration order.**  After every run the prefixes come in strictly increasing
    order of their keys; and of two live prefixes, one of which covers the other
    and is shorter, the shorter one comes first. -/
theorem iter_order (calls : List (Call A V)) :
    ∃ t replies entries, runCalls calls = .ok (t, replies)
      ∧ t.iter.collect = .ok entries
      ∧ (entries.Pairwise fun a b => prefixKey a.1 < prefixKey b.1)
      ∧ ∀ n k v w, Live (writes calls) n v → Live (writes calls) k w →
          n.Covers k.addr → n.len < k.len →
          ∃ i j : Nat, i < j ∧ entries[i]? = some (ofNetwork n, v)
            ∧ entries[j]? = some (ofNetwork k, w) := by
  obtain ⟨t, replies, m, hrun, h, hlive, -⟩ := run_live calls
  obtain ⟨es, hcollect, hlist, -, -⟩ := h.collect
  refine ⟨t, replies, es, hrun, hcollect, hlist.sorted, ?_⟩
  intro n k v w hn hk hcov hlen
  have hin : ∀ {n : Network (IpAddress.bits A)} {v : V}, Live (writes calls) n v →
      (ofNetwork n, v) ∈ es := by
    intro n v hn
    rw [hlist.mem_iff, network_ofNetwork]
    exact ⟨masked_ofNetwork n, (hlive n v).mp hn⟩
  obtain ⟨i, hi⟩ := List.getElem?_of_mem (hin hn)
  obtain ⟨j, hj⟩ := List.getElem?_of_mem (hin hk)
  refine ⟨i, j, ?_, hi, hj⟩
  have hkey : ∀ n : Network (IpAddress.bits A), prefixKey (ofNetwork n : IpPrefix A) = n.key := by
    intro n
    rw [prefixKey, network_ofNetwork]
    rfl
  have hlt := Network.key_lt_of_covers hcov hlen
  -- the other way round the keys would be out of order
  by_contra hge
  rcases Nat.lt_or_eq_of_le (Nat.le_of_not_lt hge) with hji | rfl
  · obtain ⟨hj', hje⟩ := List.getElem?_eq_some_iff.mp hj
    obtain ⟨hi', hie⟩ := List.getElem?_eq_some_iff.mp hi
    have hsorted := List.pairwise_iff_getElem.mp hlist.sorted j i hj' hi' hji
    rw [hje, hie, hkey, hkey] at hsorted
    exact List.lt_asymm hlt hsorted
  · rw [hi] at hj
    have hnk := congrArg network (Prod.mk.inj (Option.some.inj hj)).1
    rw [network_ofNetwork, network_ofNetwork] at hnk
    rw [hnk] at hlen
    exact Nat.lt_irrefl _ hlen

end Routemap
