/-
  Routemap.Treebitmap.Fuzz

  The fuzz target: operations with raw arguments, taken one after the other on a table
  of IPv4 prefixes, their results dropped.  Of IPv4 it takes no more than the width of
  an address, so it is stated here of any family of 32 bits.

  It faults on no input, and as a table is determined by its live prefixes, it gets to
  every table that the public interface gets to, also through the calls that are not
  among its operations.
-/
import Routemap.Treebitmap.Canonical

namespace Routemap

/-- A `u8`. -/
abbrev U8 := BitVec 8

/-- `Op` of the fuzz target. -/
inductive FuzzOp where
  | insert (addr : U32) (len : U8) (val : U32)
  | remove (addr : U32) (len : U8)
  | longestMatch (addr : U32)
  | longestMatchEntry (addr : U32)
  | get (addr : U32) (len : U8)
  | contains (addr : U32) (len : U8)
  | clear
  | len
  | isEmpty
deriving DecidableEq, Repr

/-- `Ipv4Addr::from(addr)`. -/
def fuzzAddr (A : Type) [IpAddress A] (addr : U32) : A := IpAddress.fromU128 (addr.setWidth 128)

/-- `IpPrefix::new(Ipv4Addr::from(addr), len.min(32))`. -/
def fuzzPrefix (A : Type) [IpAddress A] (addr : U32) (len : U8) : Option (IpPrefix A) :=
  IpAddress.new (fuzzAddr A addr) (min len.toNat 32)

variable {A : Type} [IpAddress A]

/-- One round of the loop in the fuzz target. -/
def fuzzOp (table : RouteMap A U32) : FuzzOp → M (RouteMap A U32)
  | .insert addr len val =>
    match fuzzPrefix A addr len with
    | some pfx => table.insert pfx val
    | none => pure table
  | .remove addr len =>
    match fuzzPrefix A addr len with
    | some pfx => do
      let (table, _) ← table.remove pfx
      pure table
    | none => pure table
  | .longestMatch addr => do
    let _ ← table.longestMatch (fuzzAddr A addr)
    pure table
  | .longestMatchEntry addr => do
    let _ ← table.longestMatchEntry (fuzzAddr A addr)
    pure table
  | .get addr len =>
    match fuzzPrefix A addr len with
    | some pfx => do
      let _ ← table.get pfx
      pure table
    | none => pure table
  | .contains addr len =>
    match fuzzPrefix A addr len with
    | some pfx => do
      let _ ← table.contains pfx
      pure table
    | none => pure table
  | .clear => pure table.clear
  | .len => pure table
  | .isEmpty => pure table

/-- The fuzz target on its operations. -/
def fuzz (ops : List FuzzOp) : M (RouteMap A U32) := ops.foldlM fuzzOp RouteMap.new

/-- The calls that an operation amounts to. -/
def fuzzCalls : FuzzOp → List (Call A U32)
  | .insert addr len val => (fuzzPrefix A addr len).toList.map fun pfx => .insert pfx val
  | .remove addr len => (fuzzPrefix A addr len).toList.map .remove
  | .longestMatch addr => [.longestMatch (fuzzAddr A addr)]
  | .longestMatchEntry addr => [.longestMatchEntry (fuzzAddr A addr)]
  | .get addr len => (fuzzPrefix A addr len).toList.map .get
  | .contains addr len => (fuzzPrefix A addr len).toList.map .contains
  | .clear => [.clear]
  | .len => []
  | .isEmpty => []

/-! ## Arguments -/

/-- Every address of the family comes from a `u32`. -/
theorem exists_fuzzAddr (h32 : IpAddress.bits A = 32) (a : A) : ∃ addr, fuzzAddr A addr = a := by
  have hlt := IpAddress.toU128_lt a
  rw [h32] at hlt
  refine ⟨(IpAddress.toU128 a).setWidth 32, ?_⟩
  have hwide : ((IpAddress.toU128 a).setWidth 32).setWidth 128 = IpAddress.toU128 a := by
    apply BitVec.eq_of_toNat_eq
    rw [BitVec.toNat_setWidth_of_le (by decide), BitVec.toNat_setWidth, Nat.mod_eq_of_lt hlt]
  rw [fuzzAddr, hwide, IpAddress.fromU128_toU128]

/-- The clamped length is one of the family, so there is a prefix. -/
theorem exists_fuzzPrefix (h32 : IpAddress.bits A = 32) (addr : U32) (len : U8) :
    ∃ pfx, fuzzPrefix A addr len = some pfx := by
  refine Option.isSome_iff_exists.mp ((IpAddress.new_isSome (fuzzAddr A addr) _).mpr ?_)
  rw [h32]
  exact Nat.min_le_right len.toNat 32

/-- Every prefix of the family comes from the arguments of an operation. -/
theorem exists_args (h32 : IpAddress.bits A = 32) (pfx : IpPrefix A) :
    ∃ addr len, fuzzPrefix A addr len = some pfx := by
  have hle := IpAddress.mask_le pfx
  have hlen : min (BitVec.ofNat 8 (IpAddress.mask pfx)).toNat 32 = IpAddress.mask pfx := by
    rw [BitVec.toNat_ofNat, Nat.mod_eq_of_lt (by omega)]
    exact Nat.min_eq_left (by omega)
  obtain ⟨addr, haddr⟩ := exists_fuzzAddr h32 (IpAddress.ip pfx)
  refine ⟨addr, BitVec.ofNat 8 (IpAddress.mask pfx), ?_⟩
  rw [fuzzPrefix, hlen, haddr]
  obtain ⟨pfx', hpfx'⟩ :=
    Option.isSome_iff_exists.mp ((IpAddress.new_isSome (IpAddress.ip pfx) _).mpr hle)
  rw [hpfx']
  congr 1
  exact IpAddress.prefix_ext _ _ (IpAddress.ip_new _ _ _ hpfx') (IpAddress.mask_new _ _ _ hpfx')

/-! ## Rounds -/

/-- **One round** does what its calls do. -/
theorem fuzzOp_eq (h32 : IpAddress.bits A = 32) (t : RouteMap A U32) (op : FuzzOp) :
    fuzzOp t op = Prod.fst <$> Run.run RouteMap.exec t (fuzzCalls op) := by
  cases op with
  | insert addr len val =>
      obtain ⟨pfx, hpfx⟩ := exists_fuzzPrefix h32 addr len
      simp only [fuzzOp, fuzzCalls, hpfx, Option.toList_some, List.map_cons, List.map_nil, Run.run,
        RouteMap.exec]
      cases t.insert pfx val <;> rfl
  | remove addr len =>
      obtain ⟨pfx, hpfx⟩ := exists_fuzzPrefix h32 addr len
      simp only [fuzzOp, fuzzCalls, hpfx, Option.toList_some, List.map_cons, List.map_nil, Run.run,
        RouteMap.exec]
      cases t.remove pfx <;> rfl
  | longestMatch addr =>
      rw [fuzzOp, fuzzCalls, Run.run, RouteMap.exec]
      cases t.longestMatch (fuzzAddr A addr) <;> rfl
  | longestMatchEntry addr =>
      rw [fuzzOp, fuzzCalls, Run.run, RouteMap.exec]
      cases t.longestMatchEntry (fuzzAddr A addr) <;> rfl
  | get addr len =>
      obtain ⟨pfx, hpfx⟩ := exists_fuzzPrefix h32 addr len
      simp only [fuzzOp, fuzzCalls, hpfx, Option.toList_some, List.map_cons, List.map_nil, Run.run,
        RouteMap.exec]
      cases t.get pfx <;> rfl
  | contains addr len =>
      obtain ⟨pfx, hpfx⟩ := exists_fuzzPrefix h32 addr len
      simp only [fuzzOp, fuzzCalls, hpfx, Option.toList_some, List.map_cons, List.map_nil, Run.run,
        RouteMap.exec]
      cases t.contains pfx <;> rfl
  | clear => rfl
  | len => rfl
  | isEmpty => rfl

/-- The rounds do what the calls of all the operations do, and none of them faults. -/
theorem foldlM_fuzzOp (h32 : IpAddress.bits A = 32) {t : RouteMap A U32}
    {m : Fib (IpAddress.bits A) U32} (h : RouteMap.Represents t m) (ops : List FuzzOp) :
    ∃ t' replies, ops.foldlM fuzzOp t = .ok t'
      ∧ Run.run RouteMap.exec t (ops.flatMap fuzzCalls) = .ok (t', replies) := by
  induction ops generalizing t m with
  | nil => exact ⟨t, [], rfl, rfl⟩
  | cons op ops ih =>
      obtain ⟨t₁, replies₁, hrun₁, h₁, -⟩ :=
        Run.run_refines (R := fun (t : RouteMap A U32) m => RouteMap.Represents t m)
          (fun _ _ call h => h.exec call) h (fuzzCalls op)
      obtain ⟨t', replies', hops, hrun'⟩ := ih h₁
      have hop : fuzzOp t op = .ok t₁ := by
        rw [fuzzOp_eq h32, hrun₁]
        rfl
      refine ⟨t', replies₁ ++ replies', ?_, ?_⟩
      · rw [List.foldlM_cons, hop]
        exact hops
      · rw [List.flatMap_cons]
        exact Run.run_append hrun₁ hrun'

/-- Inserts of pairs are operations. -/
theorem exists_ops (h32 : IpAddress.bits A = 32) (pairs : List (IpPrefix A × U32)) :
    ∃ ops : List FuzzOp, ∀ t : RouteMap A U32, ops.foldlM fuzzOp t
      = pairs.foldlM (fun t (pfx, value) => t.insert pfx value) t := by
  induction pairs with
  | nil => exact ⟨[], fun _ => rfl⟩
  | cons pair pairs ih =>
      obtain ⟨pfx, value⟩ := pair
      obtain ⟨addr, len, hpfx⟩ := exists_args h32 pfx
      obtain ⟨ops, hops⟩ := ih
      refine ⟨.insert addr len value :: ops, ?_⟩
      intro t
      have hop : fuzzOp t (.insert addr len value) = t.insert pfx value := by
        rw [fuzzOp, hpfx]
      rw [List.foldlM_cons, List.foldlM_cons, hop]
      exact bind_congr hops

/-- **The fuzz target is safe and complete.**  It faults on no operations, and the
    tables it ends in are those that some run of the public interface ends in. -/
theorem fuzz_reaches_all (h32 : IpAddress.bits A = 32) :
    (∀ ops, ∃ t : RouteMap A U32, fuzz ops = .ok t)
    ∧ ∀ t : RouteMap A U32, (∃ ops, fuzz ops = .ok t)
        ↔ ∃ (calls : List (Call A U32)) (replies : List (Reply A U32)),
            runCalls calls = .ok (t, replies) := by
  refine ⟨?_, ?_⟩
  · intro ops
    obtain ⟨t, replies, hfuzz, -⟩ := foldlM_fuzzOp h32 RouteMap.represents_new ops
    exact ⟨t, hfuzz⟩
  · intro t
    refine ⟨?_, ?_⟩
    · rintro ⟨ops, hfuzz⟩
      obtain ⟨t', replies, hfuzz', hrun⟩ := foldlM_fuzzOp h32 RouteMap.represents_new ops
      cases hfuzz.symm.trans hfuzz'
      exact ⟨_, replies, hrun⟩
    · -- the entries of a table, inserted one by one, make the table
      rintro ⟨calls, replies, hrun⟩
      obtain ⟨t', replies', m, hrun', h, -, -⟩ := run_live calls
      cases hrun.symm.trans hrun'
      obtain ⟨es, -, hlist, -, -⟩ := h.collect
      obtain ⟨t'', hbuild, h''⟩ := RouteMap.represents_fromIter es
      rw [hlist.replay_eq (List.Perm.refl es)] at h''
      rw [h''.unique h] at hbuild
      obtain ⟨ops, hops⟩ := exists_ops h32 es
      exact ⟨ops, (hops RouteMap.new).trans hbuild⟩

/-- The fuzz target as it is, on `Ipv4Addr`. -/
theorem fuzz_reaches_all_ipv4 :
    (∀ ops, ∃ t : RouteMap Ipv4Addr U32, fuzz ops = .ok t)
    ∧ ∀ t : RouteMap Ipv4Addr U32, (∃ ops, fuzz ops = .ok t)
        ↔ ∃ (calls : List (Call Ipv4Addr U32)) (replies : List (Reply Ipv4Addr U32)),
            runCalls calls = .ok (t, replies) :=
  fuzz_reaches_all rfl

end Routemap
