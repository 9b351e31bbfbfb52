/-
  Routemap.Machine

  The integer and `Vec` operations the crate is written with, as far as they
  can go wrong.  Every definition of this project that embeds a source function
  runs in `M`: a step that would index out of bounds, underflow, overflow, shift
  by the type's width or more, or hit an `unwrap` on a failure ends in a `Fault`
  and yields no value.

  `u32` scalars (hops, lengths, positions) are `Nat` with the range checked at
  each operation; bitmaps are `BitVec 32` and addresses `BitVec 128`, where the
  bit operations of the source are the bit operations of Lean.  `Vec` is `List`.
-/
import Mathlib.Algebra.Group.Nat.Defs

namespace Routemap

/-- A `u32` used as a bitmap. -/
abbrev U32 := BitVec 32

/-- A `u128`: an address as a number. -/
abbrev U128 := BitVec 128

/-- What can go wrong.  All but the last three are Rust panics (the arithmetic
    ones where overflow checks are on).  `cast` and `address` are silent in
    Rust: an `as` that drops bits, and a `from_u128` argument that is no address
    of the family.  They are recorded so that a run without faults has neither. -/
inductive Fault where
  | index
  | underflow
  | overflow
  | shift
  | cast
  | address
  | prefixLen
deriving DecidableEq, Repr

/-- A computation that returns or faults. -/
abbrev M := Except Fault

@[simp] theorem ok_bind {α β : Type} (a : α) (f : α → M β) :
    (Except.ok a : M α) >>= f = f a := rfl

@[simp] theorem pure_eq_ok {α : Type} (a : α) : (pure a : M α) = .ok a := rfl

@[simp] theorem error_bind {α β : Type} (e : Fault) (f : α → M β) :
    (Except.error e : M α) >>= f = .error e := rfl

@[simp] theorem throw_eq_error {α : Type} (e : Fault) : (throw e : M α) = .error e := rfl

/-- A computation that returns has returned from its first step. -/
theorem bind_eq_ok {α β : Type} {x : M α} {f : α → M β} {b : β} :
    x >>= f = .ok b ↔ ∃ a, x = .ok a ∧ f a = .ok b := by
  cases x with
  | error e => simp
  | ok a => simp

/-! ## Scalars -/

/-- `a - b` on an unsigned type. -/
def checkedSub (a b : Nat) : M Nat :=
  if b ≤ a then pure (a - b) else throw .underflow

/-- `a + b` on `u32`. -/
def checkedAdd (a b : Nat) : M Nat :=
  if a + b < 2 ^ 32 then pure (a + b) else throw .overflow

/-- `a * b` on `u32`. -/
def checkedMul (a b : Nat) : M Nat :=
  if a * b < 2 ^ 32 then pure (a * b) else throw .overflow

/-- The amount of a shift on a type of `width` bits. -/
def shiftAmount (width k : Nat) : M Nat :=
  if k < width then pure k else throw .shift

/-- `n as u8`. -/
def asU8 (n : Nat) : M Nat :=
  if n < 2 ^ 8 then pure n else throw .cast

theorem checkedSub_ok {a b : Nat} (h : b ≤ a) : checkedSub a b = .ok (a - b) := if_pos h

theorem checkedAdd_ok {a b : Nat} (h : a + b < 2 ^ 32) : checkedAdd a b = .ok (a + b) := if_pos h

theorem checkedAdd_eq_ok {a b c : Nat} : checkedAdd a b = .ok c ↔ a + b < 2 ^ 32 ∧ a + b = c := by
  rw [checkedAdd]
  split
  · simp_all
  · simp only [throw_eq_error, reduceCtorEq, false_iff]
    omega

theorem checkedMul_ok {a b : Nat} (h : a * b < 2 ^ 32) : checkedMul a b = .ok (a * b) := if_pos h

theorem shiftAmount_ok {width k : Nat} (h : k < width) : shiftAmount width k = .ok k := if_pos h

theorem asU8_ok {n : Nat} (h : n < 2 ^ 8) : asU8 n = .ok n := if_pos h

/-! ## Vec -/

section Vec

variable {α : Type}

/-- `xs[i]`. -/
def vecGet (xs : List α) (i : Nat) : M α :=
  match xs[i]? with
  | some x => pure x
  | none => throw .index

theorem vecGet_eq_ok {xs : List α} {i : Nat} {x : α} : vecGet xs i = .ok x ↔ xs[i]? = some x := by
  rw [vecGet]
  split <;> simp_all

/-- `xs[i] = x`. -/
def vecSet (xs : List α) (i : Nat) (x : α) : M (List α) :=
  if i < xs.length then pure (xs.set i x) else throw .index

/-- `xs.insert(i, x)`. -/
def vecInsert (xs : List α) (i : Nat) (x : α) : M (List α) :=
  if i ≤ xs.length then pure (xs.insertIdx i x) else throw .index

/-- `xs.remove(i)`: the removed item and the shorter `Vec`. -/
def vecRemove (xs : List α) (i : Nat) : M (α × List α) :=
  match xs[i]? with
  | some x => pure (x, xs.eraseIdx i)
  | none => throw .index

theorem vecGet_ok {xs : List α} {i : Nat} {x : α} (h : xs[i]? = some x) :
    vecGet xs i = .ok x := by
  simp [vecGet, h]

theorem vecSet_ok {xs : List α} {i : Nat} (h : i < xs.length) (x : α) :
    vecSet xs i x = .ok (xs.set i x) := if_pos h

theorem vecInsert_ok {xs : List α} {i : Nat} (h : i ≤ xs.length) (x : α) :
    vecInsert xs i x = .ok (xs.insertIdx i x) := if_pos h

theorem vecRemove_ok {xs : List α} {i : Nat} {x : α} (h : xs[i]? = some x) :
    vecRemove xs i = .ok (x, xs.eraseIdx i) := by
  simp [vecRemove, h]

/-- Writing an item where it stands changes nothing. -/
theorem set_of_get {xs : List α} {i : Nat} {x : α} (h : xs[i]? = some x) : xs.set i x = xs := by
  obtain ⟨hlt, rfl⟩ := List.getElem?_eq_some_iff.mp h
  exact List.set_getElem_self hlt

end Vec

/-! ## Bits of a bitmap -/

/-- `(bitmap >> k) & 1 == 1`. -/
def testBit (bitmap : U32) (k : Nat) : M Bool := do
  let k ← shiftAmount 32 k
  pure (bitmap >>> k &&& 1#32 == 1#32)

/-- `bitmap | (1 << k)`. -/
def setBit (bitmap : U32) (k : Nat) : M U32 := do
  let k ← shiftAmount 32 k
  pure (bitmap ||| 1#32 <<< k)

/-- `bitmap & !(1 << k)`. -/
def clearBit (bitmap : U32) (k : Nat) : M U32 := do
  let k ← shiftAmount 32 k
  pure (bitmap &&& ~~~(1#32 <<< k))

/-- `bitmap.leading_zeros()`. -/
def leadingZeros (bitmap : U32) : Nat := bitmap.clz.toNat

/-- `bitmap.trailing_zeros()`. -/
def trailingZeros (bitmap : U32) : Nat := bitmap.ctz.toNat

/-- `bitmap.count_ones()`. -/
def countOnes (bitmap : U32) : Nat := bitmap.cpop.toNat

end Routemap
