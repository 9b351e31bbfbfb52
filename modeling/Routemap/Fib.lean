/-
  Routemap.Fib

  What a routing table is for, without a word on how it is stored: a map from
  networks to values, and the longest network in it that covers an address.

  `IsLongest` says which entry an address matches.  `longest` finds it by trying
  the one covering network of each length; the tables compute it by walking down
  a tree.

  Of two tables in one (`overlay`), the longer match is the match, and what a match
  that is removed leaves behind is the longest match among the shorter entries
  (`below`).
-/
import Routemap.Ipnetx
import Routemap.Lib.History
import Routemap.Lib.LastSome
import Mathlib.Data.Finite.Prod

namespace Routemap

open LastSome

variable {bits : Nat} {V : Type}

/-- A forwarding table as a map. -/
abbrev Fib (bits : Nat) (V : Type) := Network bits → Option V

/-- There are finitely many networks, so a table has a number of entries. -/
instance : Finite (Network bits) :=
  Finite.of_injective
    (fun n : Network bits => (n.addr.toFin, Fin.mk n.len (Nat.lt_succ_of_le n.len_le))) (by
      intro m n h
      obtain ⟨haddr, hlen⟩ := Prod.mk.inj h
      have haddr' : m.addr = n.addr := BitVec.eq_of_toFin_eq haddr
      have hlen' : m.len = n.len := Fin.mk.inj hlen
      apply Network.ext_top hlen'
      rw [Network.top, Network.top, haddr', hlen'])

namespace Fib

/-- The entry an address matches: it covers the address, and no longer entry does. -/
structure IsLongest (m : Fib bits V) (a : U128) (n : Network bits) (v : V) : Prop where
  entry : m n = some v
  covers : n.Covers a
  longest : ∀ n' v', m n' = some v' → n'.Covers a → n'.len ≤ n.len

/-- No entry covers the address. -/
def NoMatch (m : Fib bits V) (a : U128) : Prop := ∀ n : Network bits, n.Covers a → m n = none

section Longest

variable (hbits : bits ≤ 128) (m : Fib bits V) (a : U128) (ha : a.toNat < 2 ^ bits)

/-- The value of the network of length `len` that covers the address. -/
def atLen (len : Nat) : Option V :=
  if h : len ≤ bits then m (Network.ofAddr hbits a ha len h) else none

/-- The length and the value of the longest match. -/
def longest : Option (Nat × V) := lastSome (atLen hbits m a ha) (bits + 1)

variable {m a}

theorem atLen_of_le {len : Nat} (h : len ≤ bits) :
    atLen hbits m a ha len = m (Network.ofAddr hbits a ha len h) := dif_pos h

theorem atLen_of_covers {n : Network bits} (hn : n.Covers a) :
    atLen hbits m a ha n.len = m n := by
  rw [atLen_of_le hbits ha n.len_le, ← (Network.covers_iff hbits ha n).mp hn]

theorem covers_ofAddr {len : Nat} (h : len ≤ bits) :
    (Network.ofAddr hbits a ha len h).Covers a :=
  (Network.covers_iff hbits ha _).mpr rfl

theorem longest_eq_some {len : Nat} {v : V} :
    longest hbits m a ha = some (len, v) ↔ ∃ n, n.len = len ∧ IsLongest m a n v := by
  rw [longest, lastSome_eq_some]
  refine ⟨?_, ?_⟩
  · rintro ⟨hlen, hv, hnone⟩
    have hle := Nat.le_of_lt_succ hlen
    rw [atLen_of_le hbits ha hle] at hv
    refine ⟨_, rfl, hv, covers_ofAddr hbits ha hle, ?_⟩
    -- a longer match would be the hit at a later length
    intro n' v' hv' hcov'
    by_contra hgt
    have hno := hnone n'.len (Nat.lt_of_not_le hgt) (Nat.lt_succ_of_le n'.len_le)
    rw [atLen_of_covers hbits ha hcov', hv'] at hno
    cases hno
  · rintro ⟨n, rfl, h⟩
    refine ⟨Nat.lt_succ_of_le n.len_le, by rw [atLen_of_covers hbits ha h.covers, h.entry], ?_⟩
    intro len hlt hlen
    have hle := Nat.le_of_lt_succ hlen
    rw [atLen_of_le hbits ha hle]
    by_contra hne
    obtain ⟨v', hv'⟩ := Option.ne_none_iff_exists'.mp hne
    have hmax := h.longest _ v' hv' (covers_ofAddr hbits ha hle)
    rw [Network.ofAddr, Network.ofTop_len] at hmax
    omega

theorem longest_eq_none : longest hbits m a ha = none ↔ NoMatch m a := by
  rw [longest, lastSome_eq_none]
  refine ⟨?_, ?_⟩
  · intro h n hn
    rw [← atLen_of_covers (m := m) hbits ha hn]
    exact h n.len (Nat.lt_succ_of_le n.len_le)
  · intro h len hlen
    have hle := Nat.le_of_lt_succ hlen
    rw [atLen_of_le hbits ha hle]
    exact h _ (covers_ofAddr hbits ha hle)

end Longest

/-- An address matches at most one entry. -/
theorem IsLongest.unique {m : Fib bits V} {a : U128} {n n' : Network bits} {v v' : V}
    (h : IsLongest m a n v) (h' : IsLongest m a n' v') : n = n' ∧ v = v' := by
  have hlen : n.len = n'.len :=
    Nat.le_antisymm (h'.longest n v h.entry h.covers) (h.longest n' v' h'.entry h'.covers)
  -- the top bits of both are those of the address
  have hn : n = n' := by
    apply Network.ext_top hlen
    have hcov := h.covers
    rw [Network.Covers, hlen] at hcov
    exact hcov.symm.trans h'.covers
  subst hn
  refine ⟨rfl, ?_⟩
  have hentry := h.entry
  rw [h'.entry] at hentry
  exact (Option.some.inj hentry).symm

/-! ## Changes -/

section Changes

variable {m m' : Fib bits V} {a : U128} {n k : Network bits} {v w : V} {len : Nat}

/-- A lookup sees the networks that cover the address. -/
theorem IsLongest.congr (hsame : ∀ n : Network bits, n.Covers a → m n = m' n)
    (h : m.IsLongest a n v) : m'.IsLongest a n v where
  entry := (hsame n h.covers).symm.trans h.entry
  covers := h.covers
  longest n' v' hv' hcov' := h.longest n' v' ((hsame n' hcov').trans hv') hcov'

theorem isLongest_congr (hsame : ∀ n : Network bits, n.Covers a → m n = m' n) :
    m.IsLongest a n v ↔ m'.IsLongest a n v :=
  ⟨fun h => h.congr hsame, fun h => h.congr fun n hn => (hsame n hn).symm⟩

theorem noMatch_congr (hsame : ∀ n : Network bits, n.Covers a → m n = m' n) :
    m.NoMatch a ↔ m'.NoMatch a :=
  forall₂_congr fun n hn => by rw [hsame n hn]

/-- The entries shorter than `len`. -/
def below (m : Fib bits V) (len : Nat) : Fib bits V := fun n => if n.len < len then m n else none

theorem below_of_lt (h : n.len < len) : m.below len n = m n := if_pos h

theorem below_of_le (h : len ≤ n.len) : m.below len n = none := if_neg (Nat.not_lt_of_le h)

theorem below_all (h : bits < len) : m.below len = m := by
  funext n
  exact below_of_lt (Nat.lt_of_le_of_lt n.len_le h)

/-- Of one length, one network covers an address. -/
theorem eq_of_covers (hn : n.Covers a) (hk : k.Covers a) (hlen : n.len = k.len) : n = k := by
  apply Network.ext_top hlen
  rw [Network.Covers, hlen] at hn
  exact hn.symm.trans hk

/-- Two tables in one, the entries of the second before those of the first. -/
def overlay (m m' : Fib bits V) : Fib bits V := fun n => (m' n).or (m n)

/-- The match in the second table is the match in both, if the first one has no longer. -/
theorem IsLongest.overlay_right (h : m'.IsLongest a n v)
    (hle : ∀ k w, m k = some w → k.Covers a → k.len ≤ n.len) :
    (m.overlay m').IsLongest a n v where
  entry := by rw [overlay, h.entry, Option.some_or]
  covers := h.covers
  longest k w hk hcov := by
    rcases Option.or_eq_some_iff.mp hk with hk | ⟨-, hk⟩
    · exact h.longest k w hk hcov
    · exact hle k w hk hcov

/-- The match in the first table is the match in both, if the second one has none as
    long. -/
theorem IsLongest.overlay_left (h : m.IsLongest a n v)
    (hlt : ∀ k w, m' k = some w → k.Covers a → k.len < n.len) :
    (m.overlay m').IsLongest a n v where
  entry := by
    have hnone : m' n = none := by
      by_contra hne
      obtain ⟨w, hw⟩ := Option.ne_none_iff_exists'.mp hne
      exact Nat.lt_irrefl _ (hlt n w hw h.covers)
    rw [overlay, hnone, Option.none_or, h.entry]
  covers := h.covers
  longest k w hk hcov := by
    rcases Option.or_eq_some_iff.mp hk with hk | ⟨-, hk⟩
    · exact Nat.le_of_lt (hlt k w hk hcov)
    · exact h.longest k w hk hcov

/-- A new entry is a table of its own on top of the old one. -/
theorem update_eq_overlay :
    Function.update m n (some v) = m.overlay (Function.update (fun _ => none) n (some v)) := by
  funext k
  by_cases hkn : k = n
  · rw [overlay, hkn, Function.update_self, Function.update_self, Option.some_or]
  · rw [overlay, Function.update_of_ne hkn, Function.update_of_ne hkn, Option.none_or]

/-- Without its match, an address sees the shorter entries. -/
theorem IsLongest.update_none (h : m.IsLongest a n v) (hk : k.Covers a) :
    Function.update m n none k = m.below n.len k := by
  by_cases hkn : k = n
  · rw [hkn, Function.update_self, below_of_le (Nat.le_refl _)]
  · rw [Function.update_of_ne hkn]
    rcases Nat.lt_or_ge k.len n.len with hlt | hge
    · rw [below_of_lt hlt]
    · -- a longer entry would be the match, and one as long would be the same
      rw [below_of_le hge]
      by_contra hne
      obtain ⟨w, hw⟩ := Option.ne_none_iff_exists'.mp hne
      exact hkn (eq_of_covers hk h.covers (Nat.le_antisymm (h.longest k w hw hk) hge))

/-- An address keeps its match when another entry is taken away. -/
theorem IsLongest.update_other (h : m.IsLongest a k w) (hne : n ≠ k) :
    IsLongest (Function.update m n none) a k w where
  entry := by rw [Function.update_of_ne hne.symm, h.entry]
  covers := h.covers
  longest k' w' hk' hcov' := by
    refine h.longest k' w' ?_ hcov'
    by_cases hkn : k' = n
    · rw [hkn, Function.update_self] at hk'
      cases hk'
    · rwa [Function.update_of_ne hkn] at hk'

end Changes
end Fib
end Routemap
