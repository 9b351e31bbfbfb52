/-
  Routemap.Treebitmap.Debug

  What `Debug::fmt` prints.  It hands the entries of the iterator to a map builder of
  the standard library, with the address of each prefix as its `Display` has it.  Two
  tables print the same only if they are the same.
-/
import Routemap.Treebitmap.Commute

namespace Routemap

open History

/-! ## Texts that end in a number -/

section Text

theorem toString_injective {n n' : Nat} (h : toString n = toString n') : n = n' := by
  have hdigits : Nat.toDigits 10 n = Nat.toDigits 10 n' := by
    simpa only [Nat.toString_eq_repr, Nat.toList_repr] using congrArg String.toList h
  simpa using congrArg (fun digits => Nat.ofDigitChars 10 digits 0) hdigits

/-- The digits at the end of a text. -/
theorem takeWhile_digits {c : Char} (hc : c.isDigit = false) (s : List Char) (n : Nat) :
    (s ++ c :: Nat.toDigits 10 n).reverse.takeWhile Char.isDigit
      = (Nat.toDigits 10 n).reverse := by
  have hall : ∀ d ∈ (Nat.toDigits 10 n).reverse, d.isDigit = true := by
    intro d hd
    exact Nat.isDigit_of_mem_toDigits (by decide) (by decide) (List.mem_reverse.mp hd)
  rw [List.reverse_append, List.reverse_cons, List.append_assoc,
    List.takeWhile_append_of_pos hall, List.singleton_append,
    List.takeWhile_cons_of_neg (by simp [hc]), List.append_nil]

/-- A text that ends in a number after a character that is no digit has both from it. -/
theorem numbered_inj {sep s s' : String} {c : Char} {n n' : Nat} (hsep : sep.toList = [c])
    (hc : c.isDigit = false) (h : s ++ sep ++ toString n = s' ++ sep ++ toString n') :
    s = s' ∧ n = n' := by
  have hlist : s.toList ++ c :: Nat.toDigits 10 n = s'.toList ++ c :: Nat.toDigits 10 n' := by
    simpa [hsep] using congrArg String.toList h
  have hdigits := congrArg (fun l => l.reverse.takeWhile Char.isDigit) hlist
  rw [takeWhile_digits hc, takeWhile_digits hc, List.reverse_inj] at hdigits
  rw [hdigits] at hlist
  refine ⟨String.toList_inj.mp (List.append_cancel_right hlist), ?_⟩
  simpa using congrArg (fun digits => Nat.ofDigitChars 10 digits 0) hdigits

end Text

/-! ## The output -/

variable {A V : Type} [IpAddress A]

/-- The key of a prefix: `format!("{}/{}", prefix.ip(), prefix.mask())`. -/
def fmtKey (display : A → String) (pfx : IpPrefix A) : String :=
  display (IpAddress.ip pfx) ++ "/" ++ toString (IpAddress.mask pfx)

/-- `Debug::fmt`: the entries that go to `debug_map`, with `display` for the `Display` of
    the addresses. -/
def RouteMap.fmt (t : RouteMap A V) (display : A → String) : M (List (String × V)) := do
  let entries ← t.iter.collect
  pure (entries.map fun (pfx, value) => (fmtKey display pfx, value))

theorem fmtKey_injective {display : A → String} (hdisplay : Function.Injective display) :
    Function.Injective (fmtKey display) := by
  intro pfx pfx' h
  obtain ⟨haddr, hmask⟩ := numbered_inj rfl (by decide) h
  exact IpAddress.prefix_ext pfx pfx' (hdisplay haddr) hmask

section Output

variable {t : RouteMap A V} {m : Fib (IpAddress.bits A) V} {display : A → String}

theorem RouteMap.Represents.fmt (h : Represents t m) (hdisplay : Function.Injective display) :
    ∃ out, t.fmt display = .ok out
      ∧ out.length = t.count
      ∧ (out.map Prod.fst).Nodup
      ∧ ∀ key v, (key, v) ∈ out ↔
          ∃ pfx, key = fmtKey display pfx ∧ IpAddress.masked pfx = pfx
            ∧ m (network pfx) = some v := by
  obtain ⟨es, hcollect, hlist, -, -⟩ := h.collect
  have hinj := fmtKey_injective hdisplay
  refine ⟨_, congrArg (fun x => x >>= _) hcollect, ?_, ?_, ?_⟩
  · rw [List.length_map, hlist.length_eq, h.count_eq]
  · rw [List.map_map]
    have hkeys : es.map (Prod.fst ∘ fun e : IpPrefix A × V => (fmtKey display e.1, e.2))
        = (es.map Prod.fst).map (fmtKey display) := by
      rw [List.map_map]
      rfl
    exact hkeys ▸ hlist.nodup.map hinj
  · intro key v
    rw [List.mem_map]
    refine ⟨?_, ?_⟩
    · rintro ⟨⟨pfx, w⟩, he, heq⟩
      cases heq
      exact ⟨pfx, rfl, (hlist.mem_iff pfx v).mp he⟩
    · rintro ⟨pfx, rfl, hlive⟩
      exact ⟨(pfx, v), (hlist.mem_iff pfx v).mpr hlive, rfl⟩

/-- The output tells the map. -/
theorem RouteMap.Represents.eq_of_fmt {t' : RouteMap A V} {m' : Fib (IpAddress.bits A) V}
    (h : Represents t m) (h' : Represents t' m') (hdisplay : Function.Injective display)
    {out out' : List (String × V)} (hout : t.fmt display = .ok out)
    (hout' : t'.fmt display = .ok out')
    (hsame : ∀ key v, (key, v) ∈ out ↔ (key, v) ∈ out') : t = t' := by
  obtain ⟨_, heq, -, -, hmem⟩ := h.fmt hdisplay
  cases hout.symm.trans heq
  obtain ⟨_, heq', -, -, hmem'⟩ := h'.fmt hdisplay
  cases hout'.symm.trans heq'
  have hinj := fmtKey_injective hdisplay
  have hm : m = m' := by
    funext n
    refine Option.ext fun v => ?_
    -- the key of the masked prefix is printed for no other
    have hkey := hsame (fmtKey display (ofNetwork n)) v
    rw [hmem, hmem'] at hkey
    have hone : ∀ m : Fib (IpAddress.bits A) V,
        (∃ pfx, fmtKey display (ofNetwork n) = fmtKey display pfx
          ∧ IpAddress.masked pfx = pfx ∧ m (network pfx) = some v) ↔ m n = some v := by
      intro m
      refine ⟨?_, ?_⟩
      · rintro ⟨pfx, heq, -, hv⟩
        rwa [← hinj heq, network_ofNetwork] at hv
      · intro hv
        exact ⟨ofNetwork n, rfl, masked_ofNetwork n, by rwa [network_ofNetwork]⟩
    rwa [hone, hone] at hkey
  subst hm
  exact h.unique h'

end Output

/-- **The output of `Debug`.**  Where the `Display` of addresses is injective, the output
    after a run has one entry for each live prefix, in masked form, and no key twice; and
    two runs whose outputs have the same entries end in the same table. -/
theorem debug_output (display : A → String) (hdisplay : Function.Injective display)
    (calls calls' : List (Call A V)) :
    ∃ t replies t' replies' out out', runCalls calls = .ok (t, replies)
      ∧ runCalls calls' = .ok (t', replies')
      ∧ t.fmt display = .ok out ∧ t'.fmt display = .ok out'
      ∧ out.length = t.len ∧ (out.map Prod.fst).Nodup
      ∧ (∀ key v, (key, v) ∈ out ↔ ∃ pfx, key = fmtKey display pfx
          ∧ IpAddress.masked pfx = pfx ∧ Live (writes calls) (network pfx) v)
      ∧ ((∀ key v, (key, v) ∈ out ↔ (key, v) ∈ out') → t = t') := by
  obtain ⟨t, replies, m, hrun, h, hlive, -⟩ := run_live calls
  obtain ⟨t', replies', m', hrun', h', -, -⟩ := run_live calls'
  obtain ⟨out, hout, hlen, hnodup, hmem⟩ := h.fmt hdisplay
  obtain ⟨out', hout', -, -, -⟩ := h'.fmt hdisplay
  refine ⟨t, replies, t', replies', out, out', hrun, hrun', hout, hout', hlen, hnodup, ?_,
    h.eq_of_fmt h' hdisplay hout hout'⟩
  intro key v
  rw [hmem]
  simp only [hlive]

/-! ## Dotted decimals -/

/-- The `Display` of an `Ipv4Addr`. -/
def dotted (addr : Ipv4Addr) : String :=
  toString (addr.toNat / 2 ^ 24) ++ "." ++ toString (addr.toNat / 2 ^ 16 % 256)
    ++ "." ++ toString (addr.toNat / 2 ^ 8 % 256) ++ "." ++ toString (addr.toNat % 256)

theorem dotted_injective : Function.Injective dotted := by
  intro addr addr' h
  obtain ⟨h, hfourth⟩ := numbered_inj rfl (by decide) h
  obtain ⟨h, hthird⟩ := numbered_inj rfl (by decide) h
  obtain ⟨h, hsecond⟩ := numbered_inj rfl (by decide) h
  have hfirst := toString_injective h
  apply BitVec.eq_of_toNat_eq
  omega

/-- After inserts of `10.0.0.0/8` and `10.20.0.0/16`. -/
theorem debug_output_dotted :
    ∃ t replies out,
      runCalls [Call.insert tenEight 1, .insert tenSixteen 2] = .ok (t, replies)
      ∧ t.fmt dotted = .ok out ∧ out.length = t.len ∧ (out.map Prod.fst).Nodup
      ∧ ("10.0.0.0/8", 1) ∈ out ∧ ("10.20.0.0/16", 2) ∈ out := by
  obtain ⟨t, replies, -, -, out, -, hrun, -, hout, -, hlen, hnodup, hmem, -⟩ :=
    debug_output dotted dotted_injective [Call.insert tenEight 1, .insert tenSixteen 2] []
  refine ⟨t, replies, out, hrun, hout, hlen, hnodup, (hmem _ _).mpr ?_, (hmem _ _).mpr ?_⟩
  · -- the second insert is of another network
    refine ⟨tenEight, by decide, rfl, [], [.put (network tenSixteen) 2], rfl, ?_⟩
    intro w hw
    rw [List.mem_singleton.mp hw]
    show ¬ network tenSixteen = network tenEight
    decide
  · exact ⟨tenSixteen, by decide, rfl, [.put (network tenEight) 1], [], rfl, by simp⟩

end Routemap
