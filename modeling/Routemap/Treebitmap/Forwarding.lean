/-
  Routemap.Treebitmap.Forwarding

  What a change of the table does to the lookups.  An address gets the longer one of
  the match it had and the match among what is added, be that one entry or all the
  entries of another table.  A remove hands the addresses its prefix served back to
  the next shorter entry, and that is one entry for all of them; so a route can be
  dropped unseen exactly if it serves no address, or the next shorter route leads to
  the same value.
-/
import Routemap.Treebitmap.Canonical
import Routemap.Treebitmap.Plain

namespace Routemap

open History

variable {A V : Type} [IpAddress A]

/-- The longer one of two matches, the second if they are as long. -/
def longer (found found' : Option (IpPrefix A × V)) : Option (IpPrefix A × V) :=
  match found, found' with
  | found, none => found
  | none, some e' => some e'
  | some e, some e' => if IpAddress.mask e.1 ≤ IpAddress.mask e'.1 then some e' else some e

/-- What an entry is worth to an address: a match if it covers the address. -/
def offer (addr : A) (pfx : IpPrefix A) (value : V) : Option (IpPrefix A × V) :=
  if covers addr pfx then some (IpAddress.masked pfx, value) else none

/-! ## Matches of maps -/

section Found

variable {m m' : Fib (IpAddress.bits A) V} {addr : A} {found found' : Option (IpPrefix A × V)}
  {pfx : IpPrefix A} {v : V}

/-- Of a map on top of another one, the longer match is found. -/
theorem Found.overlay (h : Found m addr found) (h' : Found m' addr found') :
    Found (m.overlay m') addr (longer found found') := by
  cases found' with
  | none =>
      -- nothing is added that the address sees
      refine h.congr ?_
      intro n hn
      rw [Fib.overlay, h'.noMatch rfl n hn, Option.none_or]
  | some e' =>
      obtain ⟨hmasked', hlong'⟩ := h'.isLongest e'.1 e'.2 rfl
      cases found with
      | none =>
          refine found_some hmasked' (hlong'.overlay_right ?_)
          intro k w hk hcov
          rw [h.noMatch rfl k hcov] at hk
          cases hk
      | some e =>
          obtain ⟨hmasked, hlong⟩ := h.isLongest e.1 e.2 rfl
          rw [longer]
          split
          next hle =>
            refine found_some hmasked' (hlong'.overlay_right ?_)
            intro k w hk hcov
            rw [← network_len, ← network_len] at hle
            exact Nat.le_trans (hlong.longest k w hk hcov) hle
          next hlt =>
            refine found_some hmasked (hlong.overlay_left ?_)
            intro k w hk hcov
            rw [← network_len, ← network_len] at hlt
            exact Nat.lt_of_le_of_lt (hlong'.longest k w hk hcov) (Nat.lt_of_not_le hlt)

/-- A map of one entry. -/
theorem found_single (addr : A) (pfx : IpPrefix A) (v : V) :
    Found (Function.update (fun _ => none) (network pfx) (some v)) addr (offer addr pfx v) := by
  have honly : ∀ k w, Function.update (fun _ => none) (network pfx) (some v) k = some w →
      k = network pfx := by
    intro k w hk
    by_contra hne
    rw [Function.update_of_ne hne] at hk
    cases hk
  rw [offer]
  split
  next hcov =>
    refine found_some (masked_masked pfx) ?_
    rw [network_masked]
    refine ⟨Function.update_self .., of_decide_eq_true hcov, ?_⟩
    intro k w hk _
    rw [honly k w hk]
  next hcov =>
    refine ⟨by simp, ?_⟩
    intro _ k hk
    rw [Function.update_of_ne]
    rintro rfl
    exact hcov (decide_eq_true hk)

/-- An address that the removed entry did not serve keeps its match. -/
theorem Found.remove_other (h : Found m addr found)
    (hother : ∀ v, found ≠ some (IpAddress.masked pfx, v)) :
    Found (Function.update m (network pfx) none) addr found where
  isLongest pfx' v hfound := by
    obtain ⟨hmasked, hlong⟩ := h.isLongest pfx' v hfound
    refine ⟨hmasked, hlong.update_other ?_⟩
    -- the prefix of the same network is the same prefix
    intro heq
    refine hother v ?_
    rw [hfound, masked_eq, heq, (masked_iff pfx').mp hmasked]
  noMatch hfound k hk := by
    by_cases hkn : k = network pfx
    · rw [hkn, Function.update_self]
    · rw [Function.update_of_ne hkn, h.noMatch hfound k hk]

/-- An address that the removed entry served sees the shorter entries. -/
theorem Found.remove_served (h : Found m addr (some (IpAddress.masked pfx, v)))
    (hbelow : Found (m.below (IpAddress.mask pfx)) addr found) :
    Found (Function.update m (network pfx) none) addr found := by
  obtain ⟨-, hlong⟩ := h.isLongest _ v rfl
  rw [network_masked] at hlong
  refine hbelow.congr ?_
  intro k hk
  rw [hlong.update_none hk, network_len]

end Found

/-! ## Probes -/

/-- A prefix covers its own address. -/
theorem covers_ip (pfx : IpPrefix A) :
    (network pfx).Covers (IpAddress.toU128 (IpAddress.ip pfx)) := by
  have hlen := IpAddress.mask_le pfx
  obtain ⟨pfx', hpfx'⟩ :=
    Option.isSome_iff_exists.mp ((IpAddress.new_isSome (IpAddress.ip pfx) _).mpr hlen)
  obtain rfl : pfx' = pfx :=
    IpAddress.prefix_ext _ _ (IpAddress.ip_new _ _ _ hpfx') (IpAddress.mask_new _ _ _ hpfx')
  rw [network_new hpfx' hlen]
  exact Fib.covers_ofAddr (bits_le A) (IpAddress.toU128_lt _) hlen

/-- Addresses of one network have the same prefixes up to its length. -/
theorem RouteMap.Represents.probe_congr {t : RouteMap A V} {m : Fib (IpAddress.bits A) V}
    (h : Represents t m) {addr addr' : A} {k : Network (IpAddress.bits A)}
    (hk : k.Covers (IpAddress.toU128 addr)) (hk' : k.Covers (IpAddress.toU128 addr')) {n : Nat}
    (hn : n ≤ k.len) : t.probe addr n = t.probe addr' n := by
  induction n with
  | zero => rfl
  | succ len ih =>
      have hle : len ≤ k.len := Nat.le_of_succ_le hn
      have hlen : len ≤ IpAddress.bits A := Nat.le_trans hle k.len_le
      obtain ⟨pfx, hpfx⟩ := Option.isSome_iff_exists.mp ((IpAddress.new_isSome addr len).mpr hlen)
      obtain ⟨pfx', hpfx'⟩ :=
        Option.isSome_iff_exists.mp ((IpAddress.new_isSome addr' len).mpr hlen)
      have hnet : network pfx = network pfx' := by
        rw [network_new hpfx hlen, network_new hpfx' hlen]
        refine Fib.eq_of_covers (a := k.addr) ?_ ?_ rfl
        · exact Network.covers_of_covers (Fib.covers_ofAddr _ _ hlen) hk hle
        · exact Network.covers_of_covers (Fib.covers_ofAddr _ _ hlen) hk' hle
      rw [RouteMap.probe, RouteMap.probe, newPrefix_ok hpfx, newPrefix_ok hpfx', ok_bind, ok_bind,
        h.get, h.get, hnet, masked_eq pfx, masked_eq pfx', hnet, ih hle]

/-! ## Adding entries -/

/-- **An insert offers its entry** to every address: the lookup of an address is the
    longer one of what it was and the new entry, if this covers the address. -/
theorem insert_redirects (calls : List (Call A V)) (pfx : IpPrefix A) (value : V) :
    ∃ t t' replies, runCalls calls = .ok (t, replies) ∧ t.insert pfx value = .ok t'
      ∧ ∀ addr, ∃ found, t.longestMatchEntry addr = .ok found
        ∧ t'.longestMatchEntry addr = .ok (longer found (offer addr pfx value)) := by
  obtain ⟨t, replies, m, hrun, h, -, -⟩ := run_live calls
  obtain ⟨t', hinsert, h'⟩ := h.insert pfx value
  refine ⟨t, t', replies, hrun, hinsert, ?_⟩
  intro addr
  obtain ⟨found, hlookup, -, hfound⟩ := h.found addr
  refine ⟨found, hlookup, h'.eq_of_found ?_⟩
  rw [Fib.update_eq_overlay]
  exact hfound.overlay (found_single addr pfx value)

/-- **Merging.**  Inserting the entries of a second table into a first one, in any order,
    ends in one and the same table, and there the lookup of an address is the longer one
    of its matches in the two. -/
theorem merge_lookup (calls calls' : List (Call A V)) :
    ∃ t t' merged replies replies' entries, runCalls calls = .ok (t, replies)
      ∧ runCalls calls' = .ok (t', replies')
      ∧ t'.iter.collect = .ok entries
      ∧ (∀ entries' : List (IpPrefix A × V), entries'.Perm entries →
          entries'.foldlM (fun t (pfx, value) => t.insert pfx value) t = .ok merged)
      ∧ ∀ addr, ∃ found found', t.longestMatchEntry addr = .ok found
        ∧ t'.longestMatchEntry addr = .ok found'
        ∧ merged.longestMatchEntry addr = .ok (longer found found') := by
  obtain ⟨t, replies, m, hrun, h, -, -⟩ := run_live calls
  obtain ⟨t', replies', m', hrun', h', -, -⟩ := run_live calls'
  obtain ⟨es, hcollect, hlist, -, -⟩ := h'.collect
  have hmerge : ∀ entries' : List (IpPrefix A × V), entries'.Perm es →
      ∃ merged, entries'.foldlM (fun t (pfx, value) => t.insert pfx value) t = .ok merged
        ∧ RouteMap.Represents merged (m.overlay m') := by
    intro es' hperm
    obtain ⟨merged, hinsert, hmerged⟩ := h.foldlM_insert es'
    have hmap : (es'.map fun (pfx, v) => .put (network pfx) v).foldl History.apply m
        = m.overlay m' := by
      funext n
      rw [Fib.overlay, ← hlist.replay_eq hperm]
      exact foldl_put (fun e : IpPrefix A × V => network e.1) Prod.snd es' m n
    rw [hmap] at hmerged
    exact ⟨merged, hinsert, hmerged⟩
  obtain ⟨merged, -, hmerged⟩ := hmerge es (List.Perm.refl es)
  refine ⟨t, t', merged, replies, replies', es, hrun, hrun', hcollect, ?_, ?_⟩
  · intro es' hperm
    obtain ⟨merged', hinsert, hmerged'⟩ := hmerge es' hperm
    rw [hinsert, hmerged'.unique hmerged]
  · intro addr
    obtain ⟨found, hlookup, -, hfound⟩ := h.found addr
    obtain ⟨found', hlookup', -, hfound'⟩ := h'.found addr
    exact ⟨found, found', hlookup, hlookup', hmerged.eq_of_found (hfound.overlay hfound')⟩

/-! ## Removing an entry -/

/-- **A remove falls back.**  The addresses that the removed entry served get the longest
    shorter entry of the table before, the others keep theirs. -/
theorem remove_falls_back (calls : List (Call A V)) (pfx : IpPrefix A) :
    ∃ t t' replies gone, runCalls calls = .ok (t, replies) ∧ t.remove pfx = .ok (t', gone)
      ∧ ∀ addr, ∃ found, t.longestMatchEntry addr = .ok found
        ∧ (∀ v, found = some (IpAddress.masked pfx, v) →
            gone = some v ∧ t'.longestMatchEntry addr = t.probe addr (IpAddress.mask pfx))
        ∧ ((∀ v, found ≠ some (IpAddress.masked pfx, v)) →
            t'.longestMatchEntry addr = .ok found) := by
  obtain ⟨t, replies, m, hrun, h, -, -⟩ := run_live calls
  obtain ⟨t', hremove, h'⟩ := h.remove pfx
  refine ⟨t, t', replies, m (network pfx), hrun, hremove, ?_⟩
  intro addr
  obtain ⟨found, hlookup, -, hfound⟩ := h.found addr
  refine ⟨found, hlookup, ?_, ?_⟩
  · rintro v rfl
    have hentry := (hfound.isLongest _ v rfl).2.entry
    rw [network_masked] at hentry
    obtain ⟨below, hprobe, hbelow⟩ :=
      h.probe addr (Nat.le_succ_of_le (IpAddress.mask_le pfx))
    rw [hprobe]
    exact ⟨hentry, h'.eq_of_found (hfound.remove_served hbelow)⟩
  · exact fun hother => h'.eq_of_found (hfound.remove_other hother)

/-- **When a route is redundant.**  Removing a prefix leaves the value of every lookup as
    it was exactly if the prefix serves no address, or the longest shorter entry that
    covers it holds the value that is removed. -/
theorem remove_unseen_iff (calls : List (Call A V)) (pfx : IpPrefix A) :
    ∃ t t' replies gone around, runCalls calls = .ok (t, replies)
      ∧ t.remove pfx = .ok (t', gone)
      ∧ t.probe (IpAddress.ip pfx) (IpAddress.mask pfx) = .ok around
      ∧ ((∀ addr, t'.longestMatch addr = t.longestMatch addr) ↔
          (∀ addr v, t.longestMatchEntry addr ≠ .ok (some (IpAddress.masked pfx, v)))
          ∨ around.map Prod.snd = gone) := by
  obtain ⟨t, replies, m, hrun, h, -, -⟩ := run_live calls
  obtain ⟨t', hremove, h'⟩ := h.remove pfx
  have hle : IpAddress.mask pfx ≤ IpAddress.bits A + 1 :=
    Nat.le_succ_of_le (IpAddress.mask_le pfx)
  obtain ⟨around, haround, -⟩ := h.probe (IpAddress.ip pfx) hle
  refine ⟨t, t', replies, m (network pfx), around, hrun, hremove, haround, ?_⟩
  -- every address the prefix serves gets the value of the route around it
  have hserved : ∀ addr v, Found m addr (some (IpAddress.masked pfx, v)) →
      m (network pfx) = some v ∧ t'.longestMatch addr = .ok (around.map Prod.snd) := by
    intro addr v hfound
    obtain ⟨-, hlong⟩ := hfound.isLongest _ v rfl
    rw [network_masked] at hlong
    obtain ⟨below, hprobe, hbelow⟩ := h.probe addr hle
    rw [h.probe_congr hlong.covers (covers_ip pfx) (network_len pfx).ge, haround] at hprobe
    cases hprobe
    obtain ⟨found', hlookup', hvalue', -⟩ := h'.found addr
    rw [h'.eq_of_found (hfound.remove_served hbelow)] at hlookup'
    cases hlookup'
    exact ⟨hlong.entry, hvalue'⟩
  refine ⟨?_, ?_⟩
  · intro hsame
    rw [or_iff_not_imp_left]
    intro hserves
    obtain ⟨addr, hserves⟩ := not_forall.mp hserves
    obtain ⟨v, hlookup⟩ := not_forall_not.mp hserves
    obtain ⟨found, hlookup', hvalue, hfound⟩ := h.found addr
    rw [hlookup] at hlookup'
    cases hlookup'
    obtain ⟨hgone, hafter⟩ := hserved addr v hfound
    rw [hsame addr, hvalue] at hafter
    rw [hgone, ← Except.ok.inj hafter]
    rfl
  · intro hcase addr
    obtain ⟨found, hlookup, hvalue, hfound⟩ := h.found addr
    by_cases hother : ∀ v, found ≠ some (IpAddress.masked pfx, v)
    · obtain ⟨found', hlookup', hvalue', -⟩ := h'.found addr
      rw [h'.eq_of_found (hfound.remove_other hother)] at hlookup'
      cases hlookup'
      rw [hvalue', hvalue]
    · obtain ⟨v, rfl⟩ := not_forall_not.mp hother
      obtain ⟨hgone, hafter⟩ := hserved addr v hfound
      rcases hcase with hnone | hequal
      · exact absurd hlookup (hnone addr v)
      · rw [hafter, hvalue, hequal, hgone]
        rfl

end Routemap
