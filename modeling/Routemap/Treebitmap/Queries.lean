/-
  Routemap.Treebitmap.Queries

  What a user of `RouteMap` relies on, over every run of its interface: no run
  panics, exact queries answer as the map of the live prefixes does, and lookups
  answer with the longest live prefix that covers the address.

  A run is a list of calls from the empty table.  A prefix is live when it was
  inserted, under any host bits, and neither removed nor cleared since (`Live` of
  the `writes` of the run).
-/
import Routemap.Treebitmap.Runs

namespace Routemap

open History

variable {A V : Type} [IpAddress A]

/-- A table of the live map, as the run relation of the results below. -/
theorem run_live (calls : List (Call A V)) :
    ∃ t replies m, runCalls calls = .ok (t, replies) ∧ RouteMap.Represents t m
      ∧ (∀ n v, Live (writes calls) n v ↔ m n = some v)
      ∧ Run.Answers Call.apply Call.Answer (fun _ => none) calls replies := by
  obtain ⟨t, replies, hrun, h, hanswers⟩ := run_represents calls
  exact ⟨t, replies, _, hrun, h, live_iff (writes calls), hanswers⟩

/-- The reply to a call is right for what the calls before it left live. -/
theorem reply_of_answers {calls : List (Call A V)} {replies : List (Reply A V)}
    (h : Run.Answers Call.apply Call.Answer (fun _ => none) calls replies) {i : Nat}
    {call : Call A V} (hcall : calls[i]? = some call) :
    ∃ reply, replies[i]? = some reply
      ∧ call.Answer (replay (writes (calls.take i))) reply := by
  obtain ⟨reply, hreply, hanswer⟩ := h.get hcall
  rw [foldl_apply] at hanswer
  exact ⟨reply, hreply, hanswer⟩

/-! ## Lookups -/

/-- **Longest prefix match.**  At the end of every run, the lookup of an address
    finds the live prefix that covers it and is not covered in length by another
    one, in masked form and with its value; it finds none when no live prefix
    covers the address. -/
theorem longest_match_correct (calls : List (Call A V)) (addr : A) :
    ∃ t replies found, runCalls calls = .ok (t, replies)
      ∧ t.longestMatchEntry addr = .ok found
      ∧ t.longestMatch addr = .ok (found.map Prod.snd)
      ∧ (∀ pfx v, found = some (pfx, v) ↔
          IpAddress.masked pfx = pfx
          ∧ Live (writes calls) (network pfx) v
          ∧ (network pfx).Covers (IpAddress.toU128 addr)
          ∧ ∀ n w, Live (writes calls) n w → n.Covers (IpAddress.toU128 addr) →
              n.len ≤ (network pfx).len)
      ∧ (found = none ↔
          ∀ n w, Live (writes calls) n w → ¬ n.Covers (IpAddress.toU128 addr)) := by
  obtain ⟨t, replies, m, hrun, h, hlive, -⟩ := run_live calls
  obtain ⟨found, hentry, hvalue, hsome, hnone⟩ := h.longestMatchEntry addr
  refine ⟨t, replies, found, hrun, hentry, hvalue, ?_, ?_⟩
  · intro pfx v
    simp only [hlive]
    rw [hsome]
    refine ⟨?_, ?_⟩
    · rintro ⟨hmasked, hlong⟩
      exact ⟨hmasked, hlong.entry, hlong.covers, hlong.longest⟩
    · rintro ⟨hmasked, hv, hcov, hmax⟩
      exact ⟨hmasked, hv, hcov, hmax⟩
  · simp only [hlive]
    rw [hnone]
    refine ⟨?_, ?_⟩
    · intro hno n w hw hcov
      rw [hno n hcov] at hw
      cases hw
    · intro hno n hcov
      by_contra hne
      obtain ⟨w, hw⟩ := Option.ne_none_iff_exists'.mp hne
      exact hno n w hw hcov

/-- The table of the crate's documentation: a default route, a `/8` and a `/16` in it. -/
example : (do
    let t ← (RouteMap.new : RouteMap Ipv4Addr Nat).insert (⟨0, 0, by decide⟩ : WordPrefix 32) 1
    let t ← t.insert (⟨0x0A000000, 8, by decide⟩ : WordPrefix 32) 2
    let t ← t.insert (⟨0x0A140000, 16, by decide⟩ : WordPrefix 32) 3
    pure (← t.longestMatch 0x0A140501#32, ← t.longestMatch 0x0A630001#32,
      ← t.longestMatch 0xC0A80101#32)) = .ok (some 3, some 2, some 1) := by decide

/-! ## Exact queries -/

/-- **The table is a map keyed by masked prefixes.**  In every run, a `get` or a
    `remove` returns what is live under the prefix at that point and `contains`
    whether anything is; after every run, `remove` returns what `get` would, and
    an insert or a remove leaves the other prefixes alone. -/
theorem exact_match_refines (calls : List (Call A V)) :
    ∃ t replies, runCalls calls = .ok (t, replies)
      ∧ (∀ i pfx, calls[i]? = some (.get pfx) ∨ calls[i]? = some (.remove pfx) →
          ∃ found, replies[i]? = some (.value found)
            ∧ ∀ v, found = some v ↔ Live (writes (calls.take i)) (network pfx) v)
      ∧ (∀ i pfx, calls[i]? = some (.contains pfx) →
          ∃ found, replies[i]? = some (.flag found)
            ∧ (found = true ↔ ∃ v, Live (writes (calls.take i)) (network pfx) v))
      ∧ (∀ pfx, ∃ found t', t.get pfx = .ok found
          ∧ (∀ v, found = some v ↔ Live (writes calls) (network pfx) v)
          ∧ t.contains pfx = .ok found.isSome
          ∧ t.remove pfx = .ok (t', found)
          ∧ t'.get pfx = .ok none
          ∧ ∀ q, network q ≠ network pfx → t'.get q = t.get q)
      ∧ (∀ pfx v, ∃ t', t.insert pfx v = .ok t'
          ∧ t'.get pfx = .ok (some v)
          ∧ ∀ q, network q ≠ network pfx → t'.get q = t.get q) := by
  obtain ⟨t, replies, m, hrun, h, hlive, hanswers⟩ := run_live calls
  refine ⟨t, replies, hrun, ?_, ?_, ?_, ?_⟩
  · rintro i pfx (hcall | hcall)
    · obtain ⟨reply, hreply, hanswer⟩ := reply_of_answers hanswers hcall
      cases reply with
      | value found =>
          exact ⟨found, hreply, fun v => by rw [hanswer, live_iff]⟩
      | _ => exact hanswer.elim
    · obtain ⟨reply, hreply, hanswer⟩ := reply_of_answers hanswers hcall
      cases reply with
      | value found =>
          exact ⟨found, hreply, fun v => by rw [hanswer, live_iff]⟩
      | _ => exact hanswer.elim
  · intro i pfx hcall
    obtain ⟨reply, hreply, hanswer⟩ := reply_of_answers hanswers hcall
    cases reply with
    | flag found =>
        refine ⟨found, hreply, ?_⟩
        rw [hanswer, Option.isSome_iff_exists]
        simp only [live_iff]
    | _ => exact hanswer.elim
  · intro pfx
    obtain ⟨t', hremove, h'⟩ := h.remove pfx
    refine ⟨m (network pfx), t', h.get pfx, fun v => (hlive _ v).symm, h.contains pfx, hremove,
      ?_, ?_⟩
    · rw [h'.get, Function.update_self]
    · intro q hq
      rw [h'.get, h.get, Function.update_of_ne hq]
  · intro pfx v
    obtain ⟨t', hinsert, h'⟩ := h.insert pfx v
    refine ⟨t', hinsert, ?_, ?_⟩
    · rw [h'.get, Function.update_self]
    · intro q hq
      rw [h'.get, h.get, Function.update_of_ne hq]

/-! ## Safety -/

/-- **No run faults.**  Every run of inserts, removes, queries, lookups, clears and
    whole or partial iterations returns: no index out of bounds, no underflow or
    overflow, no shift by the width or more, no truncating cast, no address
    outside the family, and no `expect` or `unwrap` on a length over `A::BITS`.
    The length a lookup works with, for any address as a number, is at most that. -/
theorem run_never_faults (calls : List (Call A V)) :
    ∃ t replies, runCalls calls = .ok (t, replies)
      ∧ ∀ addr : U128, addr.toNat < 2 ^ IpAddress.bits A →
          ∃ best, t.longestMatchImpl addr = .ok best
            ∧ ∀ v len, best = some (v, len) → len ≤ IpAddress.bits A := by
  obtain ⟨t, replies, m, hrun, h, -, -⟩ := run_live calls
  refine ⟨t, replies, hrun, ?_⟩
  intro addr haddr
  refine ⟨_, h.longestMatchImpl haddr, ?_⟩
  intro v len hbest
  obtain ⟨⟨len', v'⟩, hfound, heq⟩ := Option.map_eq_some_iff.mp hbest
  cases heq
  obtain ⟨n, rfl, -⟩ := (Fib.longest_eq_some (bits_le A) haddr).mp hfound
  exact n.len_le

end Routemap
