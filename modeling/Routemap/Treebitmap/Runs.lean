/-
  Routemap.Treebitmap.Runs

  Runs of the public interface of `RouteMap`: calls, their replies, and the
  writes a call makes to the map of the live prefixes.

  `run_represents` is the refinement theorem: every run from the empty table
  returns, ends in a table of the live map, and answers every call from the map
  that was live before it.
-/
import Routemap.Lib.Run
import Routemap.Treebitmap.Lookup
import Routemap.Treebitmap.Iterate

namespace Routemap

open History

/-! ## The order of prefixes -/

section Order

variable {A V : Type} [IpAddress A]

/-- The place of a prefix in the order of iteration: each of its whole nibbles as
    `16 + n`, and then its position in the bitmap of its node. -/
def prefixKey (pfx : IpPrefix A) : List Nat :=
  (network pfx).path.map (16 + ·) ++ [(network pfx).pos]

/-- `es` lists the entries of `m` in the order of iteration. -/
structure Listing (m : Fib (IpAddress.bits A) V) (es : List (IpPrefix A × V)) : Prop where
  mem_iff : ∀ pfx v, (pfx, v) ∈ es ↔ IpAddress.masked pfx = pfx ∧ m (network pfx) = some v
  sorted : es.Pairwise fun a b => prefixKey a.1 < prefixKey b.1

variable {m : Fib (IpAddress.bits A) V} {es : List (IpPrefix A × V)}

/-- No prefix is listed twice. -/
theorem Listing.nodup (h : Listing m es) : (es.map Prod.fst).Nodup := by
  rw [List.Nodup, List.pairwise_map]
  refine h.sorted.imp ?_
  intro a b hlt heq
  rw [heq] at hlt
  exact List.lt_irrefl _ hlt

/-- There are as many entries as keys. -/
theorem Listing.length_eq (h : Listing m es) : es.length = (support m).ncard := by
  have hinj : Function.Injective (ofNetwork : Network (IpAddress.bits A) → IpPrefix A) := by
    intro n k hnk
    rw [← network_ofNetwork (A := A) n, hnk, network_ofNetwork]
  have hset : {p | p ∈ es.map Prod.fst} = ofNetwork '' support m := by
    ext pfx
    simp only [Set.mem_ofPred_eq, List.mem_map, Prod.exists, exists_and_right, exists_eq_right,
      Set.mem_image]
    refine ⟨?_, ?_⟩
    · rintro ⟨v, hv⟩
      obtain ⟨hmasked, hlive⟩ := (h.mem_iff pfx v).mp hv
      exact ⟨network pfx, by simp [support, hlive], (masked_iff pfx).mp hmasked⟩
    · rintro ⟨n, hn, rfl⟩
      obtain ⟨v, hv⟩ := Option.isSome_iff_exists.mp hn
      exact ⟨v, (h.mem_iff _ v).mpr ⟨masked_ofNetwork n, by rw [network_ofNetwork, hv]⟩⟩
  have hcard := Set.ncard_image_of_injective (support m) hinj
  rw [← hset] at hcard
  rw [← hcard, ← List.length_map Prod.fst]
  classical
  rw [show {p | p ∈ es.map Prod.fst} = ((es.map Prod.fst).toFinset : Set (IpPrefix A)) by
    ext p; simp, Set.ncard_coe_finset, List.toFinset_card_of_nodup h.nodup]

end Order

namespace RouteMap

variable {A V : Type} [IpAddress A] {t : RouteMap A V} {m : Fib (IpAddress.bits A) V}

theorem iter_ok (hs : TbNode.Shape (levels A) t.root) :
    t.iter.Ok ∧ t.iter.pending = t.root.entries (levels A) [] := by
  refine ⟨⟨rfl, ?_⟩, ?_⟩
  · intro frame hframe
    rw [List.mem_singleton.mp hframe]
    exact ⟨Nat.zero_le _, hs, Nat.two_pow_pos _, rfl⟩
  · rw [hs.entries_eq, Iter.pending, RouteMap.iter, List.flatMap_singleton]
    rfl

/-- A masked prefix is determined by its slot. -/
theorem eq_of_slotEntry {e : IpPrefix A × V} {pfx : IpPrefix A} {v : V}
    (he : IpAddress.masked e.1 = e.1) (hpfx : IpAddress.masked pfx = pfx)
    (hslot : slotEntry e = slotEntry (pfx, v)) : e = (pfx, v) := by
  obtain ⟨hkey, hv⟩ := Prod.mk.inj hslot
  obtain ⟨hpath, hpos⟩ := Prod.mk.inj hkey
  have hnet := Network.slot_injective (stride_dvd A) hpath hpos
  refine Prod.ext ?_ hv
  rw [← (masked_iff e.1).mp he, hnet]
  exact (masked_iff pfx).mp hpfx

/-- **The iterator lists the map**, and a part of the iteration its start. -/
theorem Holds.collect (h : Holds t m) :
    ∃ es, t.iter.collect = .ok es ∧ Listing m es ∧ es.length = t.root.ones
      ∧ ∀ n, t.iter.take n = .ok (es.take n) := by
  obtain ⟨ok, hpend⟩ := iter_ok h.shape
  obtain ⟨es, hcollect, hmap, hmasked, htake⟩ := Iter.collect_ok ok
  rw [hpend] at hmap
  refine ⟨es, hcollect, ⟨?_, ?_⟩, ?_, htake⟩
  · intro pfx v
    have hmem : slotEntry (pfx, v) ∈ t.root.entries (levels A) [] ↔ _ := h.shape.mem_entries
    rw [← hmap] at hmem
    refine ⟨?_, ?_⟩
    · intro he
      obtain ⟨rest, hpath, hv⟩ := hmem.mp (List.mem_map_of_mem he)
      refine ⟨hmasked _ he, ?_⟩
      rw [← h.lookup_eq]
      rwa [← show (network pfx).path = rest from hpath] at hv
    · -- the slot is in the listing, and only this prefix has it
      rintro ⟨hpfx, hv⟩
      rw [← h.lookup_eq] at hv
      obtain ⟨e, he, hslot⟩ := List.mem_map.mp (hmem.mpr ⟨_, rfl, hv⟩)
      rwa [eq_of_slotEntry (hmasked e he) hpfx hslot] at he
  · have hsorted := h.shape.entries_sorted []
    rw [← hmap, List.pairwise_map] at hsorted
    exact hsorted
  · rw [← List.length_map slotEntry, hmap, h.shape.length_entries]

theorem Represents.collect (h : Represents t m) :
    ∃ es, t.iter.collect = .ok es ∧ Listing m es ∧ es.length = t.root.ones
      ∧ ∀ n, t.iter.take n = .ok (es.take n) := h.holds.collect

end RouteMap

/-! ## Calls -/

section Calls

variable {A V : Type} [IpAddress A]

/-- A call of the public interface.  `fromIter` stands for a table collected anew
    from pairs, `iter` for an iterator run to exhaustion, `next k` for one dropped
    after `k` calls of `next`. -/
inductive Call (A V : Type) [IpAddress A] where
  | insert (pfx : IpPrefix A) (value : V)
  | remove (pfx : IpPrefix A)
  | clear
  | fromIter (pairs : List (IpPrefix A × V))
  | get (pfx : IpPrefix A)
  | contains (pfx : IpPrefix A)
  | longestMatch (addr : A)
  | longestMatchEntry (addr : A)
  | iter
  | next (k : Nat)

/-- What a call returns. -/
inductive Reply (A V : Type) [IpAddress A] where
  | unit
  | value (found : Option V)
  | flag (found : Bool)
  | entry (found : Option (IpPrefix A × V))
  | entries (found : List (IpPrefix A × V))

/-- Take a call on a table. -/
def RouteMap.exec (t : RouteMap A V) : Call A V → M (RouteMap A V × Reply A V)
  | .insert pfx value => do pure (← t.insert pfx value, .unit)
  | .remove pfx => do
    let (t, removed) ← t.remove pfx
    pure (t, .value removed)
  | .clear => pure (t.clear, .unit)
  | .fromIter pairs => do pure (← RouteMap.fromIter pairs, .unit)
  | .get pfx => do pure (t, .value (← t.get pfx))
  | .contains pfx => do pure (t, .flag (← t.contains pfx))
  | .longestMatch addr => do pure (t, .value (← t.longestMatch addr))
  | .longestMatchEntry addr => do pure (t, .entry (← t.longestMatchEntry addr))
  | .iter => do pure (t, .entries (← t.iter.collect))
  | .next k => do pure (t, .entries (← t.iter.take k))

/-- The writes of a call to the map of the live prefixes. -/
def Call.writes : Call A V → List (Write (Network (IpAddress.bits A)) V)
  | .insert pfx value => [.put (network pfx) value]
  | .remove pfx => [.del (network pfx)]
  | .clear => [.reset]
  | .fromIter pairs => .reset :: pairs.map fun (pfx, value) => .put (network pfx) value
  | _ => []

/-- The writes of a run. -/
def writes (calls : List (Call A V)) : List (Write (Network (IpAddress.bits A)) V) :=
  calls.flatMap Call.writes

/-- The map after a call. -/
def Call.apply (m : Fib (IpAddress.bits A) V) (call : Call A V) : Fib (IpAddress.bits A) V :=
  call.writes.foldl History.apply m

/-- The replies that are right when `m` is the map of the live prefixes. -/
def Call.Answer (m : Fib (IpAddress.bits A) V) : Call A V → Reply A V → Prop
  | .insert .., .unit => True
  | .clear, .unit => True
  | .fromIter _, .unit => True
  | .remove pfx, .value found => found = m (network pfx)
  | .get pfx, .value found => found = m (network pfx)
  | .contains pfx, .flag found => found = (m (network pfx)).isSome
  | .longestMatch addr, .value found =>
    ∀ v, found = some v ↔ ∃ n, m.IsLongest (IpAddress.toU128 addr) n v
  | .longestMatchEntry addr, .entry found =>
    (∀ pfx v, found = some (pfx, v) ↔
      IpAddress.masked pfx = pfx ∧ m.IsLongest (IpAddress.toU128 addr) (network pfx) v)
    ∧ (found = none ↔ m.NoMatch (IpAddress.toU128 addr))
  | .iter, .entries found => Listing m found
  | .next k, .entries found => ∃ all, Listing m all ∧ found = all.take k
  | _, _ => False

variable {t : RouteMap A V} {m : Fib (IpAddress.bits A) V}

/-- **One call** on a table of `m` returns, leaves a table of the map after it, and
    answers from `m`. -/
theorem RouteMap.Holds.exec (h : Holds t m) (call : Call A V) :
    ∃ t' reply, t.exec call = .ok (t', reply) ∧ Holds t' (call.apply m)
      ∧ call.Answer m reply := by
  cases call with
  | insert pfx value =>
      obtain ⟨t', hrun, h'⟩ := h.insert pfx value
      exact ⟨t', .unit, congrArg (fun x => x >>= _) hrun, h', trivial⟩
  | remove pfx =>
      obtain ⟨t', hrun, h'⟩ := h.remove pfx
      exact ⟨t', .value (m (network pfx)), congrArg (fun x => x >>= _) hrun, h', rfl⟩
  | clear => exact ⟨t.clear, .unit, rfl, (represents_clear t).holds, trivial⟩
  | fromIter pairs =>
      obtain ⟨t', hrun, h'⟩ := represents_fromIter pairs
      exact ⟨t', .unit, congrArg (fun x => x >>= _) hrun, h'.holds, trivial⟩
  | get pfx => exact ⟨t, _, congrArg (fun x => x >>= _) (h.get pfx), h, rfl⟩
  | contains pfx => exact ⟨t, _, congrArg (fun x => x >>= _) (h.contains pfx), h, rfl⟩
  | longestMatch addr =>
      -- the value alone: the network it came with is the masked prefix of the entry
      obtain ⟨found, -, hrun, hsome, -⟩ := h.longestMatchEntry addr
      refine ⟨t, _, congrArg (fun x => x >>= _) hrun, h, ?_⟩
      intro v
      rw [Option.map_eq_some_iff]
      refine ⟨?_, ?_⟩
      · rintro ⟨⟨pfx, w⟩, hfound, rfl⟩
        exact ⟨network pfx, ((hsome pfx w).mp hfound).2⟩
      · rintro ⟨n, hn⟩
        refine ⟨(ofNetwork n, v), (hsome _ v).mpr ⟨masked_ofNetwork n, ?_⟩, rfl⟩
        rwa [network_ofNetwork]
  | longestMatchEntry addr =>
      obtain ⟨found, hrun, -, hsome, hnone⟩ := h.longestMatchEntry addr
      exact ⟨t, _, congrArg (fun x => x >>= _) hrun, h, hsome, hnone⟩
  | iter =>
      obtain ⟨es, hrun, hlist, -, -⟩ := h.collect
      exact ⟨t, _, congrArg (fun x => x >>= _) hrun, h, hlist⟩
  | next k =>
      obtain ⟨es, -, hlist, -, htake⟩ := h.collect
      exact ⟨t, _, congrArg (fun x => x >>= _) (htake k), h, es, hlist, rfl⟩

/-- A call that returns from a query has left the table. -/
theorem eq_of_query {β : Type} {x : M β} {f : β → Reply A V} {t' : RouteMap A V}
    {reply : Reply A V}
    (hexec : (do pure (t, f (← x)) : M (RouteMap A V × Reply A V)) = .ok (t', reply)) :
    t' = t := by
  obtain ⟨b, -, heq⟩ := bind_eq_ok.mp hexec
  cases heq
  rfl

/-- One call on a pruned table of `m` does the same and leaves no empty node. -/
theorem RouteMap.Represents.exec (h : Represents t m) (call : Call A V) :
    ∃ t' reply, t.exec call = .ok (t', reply) ∧ Represents t' (call.apply m)
      ∧ call.Answer m reply := by
  obtain ⟨t', reply, hexec, h', hanswer⟩ := h.holds.exec call
  refine ⟨t', reply, hexec, h'.represents ?_, hanswer⟩
  cases call with
  | insert pfx value =>
      obtain ⟨t₁, hrun, heq⟩ := bind_eq_ok.mp hexec
      cases heq
      obtain ⟨t₂, hrun', h₂⟩ := h.insert pfx value
      cases hrun.symm.trans hrun'
      exact h₂.tight
  | remove pfx =>
      obtain ⟨⟨t₁, gone⟩, hrun, heq⟩ := bind_eq_ok.mp hexec
      cases heq
      obtain ⟨t₂, hrun', h₂⟩ := h.remove pfx
      cases hrun.symm.trans hrun'
      exact h₂.tight
  | clear =>
      cases hexec
      exact (represents_clear t).tight
  | fromIter pairs =>
      obtain ⟨t₁, hrun, heq⟩ := bind_eq_ok.mp hexec
      cases heq
      obtain ⟨t₂, hrun', h₂⟩ := represents_fromIter pairs
      cases hrun.symm.trans hrun'
      exact h₂.tight
  | _ =>
      rw [eq_of_query hexec]
      exact h.tight

/-! ## Runs -/

/-- The calls of a run from the empty table: the table it ends in, and the replies. -/
def runCalls (calls : List (Call A V)) : M (RouteMap A V × List (Reply A V)) :=
  Run.run RouteMap.exec RouteMap.new calls

theorem foldl_apply (m : Fib (IpAddress.bits A) V) (calls : List (Call A V)) :
    calls.foldl Call.apply m = (writes calls).foldl History.apply m :=
  foldl_flatMap_apply Call.writes m calls

/-- **Every run refines the map of the live prefixes.** -/
theorem run_represents (calls : List (Call A V)) :
    ∃ t replies, runCalls calls = .ok (t, replies)
      ∧ RouteMap.Represents t (replay (writes calls))
      ∧ Run.Answers Call.apply Call.Answer (fun _ => none) calls replies := by
  obtain ⟨t, replies, hrun, h, hanswers⟩ :=
    Run.run_refines (R := fun (t : RouteMap A V) m => RouteMap.Represents t m)
      (fun _ _ call h => h.exec call) RouteMap.represents_new calls
  rw [foldl_apply] at h
  exact ⟨t, replies, hrun, h, hanswers⟩

end Calls
end Routemap
