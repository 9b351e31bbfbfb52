/-
  Routemap.Ipnetx

  The interface of the `ipnetx` crate, which is not part of this repository:
  the sealed trait `IpAddress` and the prefix type `IpPrefix<A>`, with what the
  tables rely on as the laws of the class.  `Ipv4Addr` and `Ipv6Addr` below are
  instances, so the laws are satisfiable at both widths.

  `Network` is the canonical form of a prefix, the key under which the tables
  store a value: a network address whose host bits are zero, and a length.
-/
import Routemap.Machine
import Mathlib.Tactic.Ring

namespace Routemap

/-- What the tables use of `ipnetx`: the trait `IpAddress` for one address
    family, and the prefixes of that family. -/
class IpAddress (A : Type) where
  /-- `IpPrefix<A>`. -/
  Prefix : Type
  /-- `A::BITS`. -/
  bits : Nat
  toU128 : A → U128
  fromU128 : U128 → A
  /-- `IpPrefix::new`; `none` is its `Err`. -/
  new : A → Nat → Option Prefix
  ip : Prefix → A
  mask : Prefix → Nat
  masked : Prefix → Prefix
  /-- The trait is sealed: `Ipv4Addr` and `Ipv6Addr` implement it. -/
  bits_eq : bits = 32 ∨ bits = 128
  toU128_lt : ∀ a, (toU128 a).toNat < 2 ^ bits
  fromU128_toU128 : ∀ a, fromU128 (toU128 a) = a
  toU128_fromU128 : ∀ x : U128, x.toNat < 2 ^ bits → toU128 (fromU128 x) = x
  /-- `IpPrefix::new` succeeds exactly for lengths up to `A::BITS`. -/
  new_isSome : ∀ a len, (new a len).isSome = true ↔ len ≤ bits
  ip_new : ∀ a len p, new a len = some p → ip p = a
  mask_new : ∀ a len p, new a len = some p → mask p = len
  mask_le : ∀ p, mask p ≤ bits
  mask_masked : ∀ p, mask (masked p) = mask p
  /-- `masked` zeroes exactly the host bits. -/
  ip_masked : ∀ p, toU128 (ip (masked p)) =
    toU128 (ip p) >>> (bits - mask p) <<< (bits - mask p)
  /-- A prefix has no other content than its address and its length. -/
  prefix_ext : ∀ p q, ip p = ip q → mask p = mask q → p = q

/-- `IpPrefix<A>`. -/
abbrev IpPrefix (A : Type) [IpAddress A] : Type := IpAddress.Prefix A

/-- `A::from_u128(x)`, on an `x` that is an address of the family. -/
def fromU128 {A : Type} [IpAddress A] (x : U128) : M A :=
  if x.toNat < 2 ^ IpAddress.bits A then pure (IpAddress.fromU128 x) else throw .address

/-- `IpPrefix::new(a, len)` followed by the `expect` or `unwrap` on it. -/
def newPrefix {A : Type} [IpAddress A] (a : A) (len : Nat) : M (IpPrefix A) :=
  match IpAddress.new a len with
  | some p => pure p
  | none => throw .prefixLen

theorem fromU128_ok {A : Type} [IpAddress A] {x : U128} (h : x.toNat < 2 ^ IpAddress.bits A) :
    (fromU128 x : M A) = .ok (IpAddress.fromU128 x) := if_pos h

theorem newPrefix_ok {A : Type} [IpAddress A] {a : A} {len : Nat} {p : IpPrefix A}
    (h : IpAddress.new a len = some p) : newPrefix a len = .ok p := by
  rw [newPrefix, h]
  rfl

/-! ## Networks -/

/-- A canonical prefix of an address family of `bits` bits: at most `bits` long,
    an address of the family, no host bit set. -/
structure Network (bits : Nat) where
  addr : U128
  len : Nat
  len_le : len ≤ bits
  addr_lt : addr.toNat < 2 ^ bits
  host_zero : addr.toNat % 2 ^ (bits - len) = 0
deriving DecidableEq

namespace Network

variable {bits : Nat}

/-- The network bits of an address: its top `len` bits, as a number. -/
def topBits (bits a len : Nat) : Nat := a / 2 ^ (bits - len)

/-- The top `len` bits of the network address; the rest of it is zero. -/
def top (n : Network bits) : Nat := topBits bits n.addr.toNat n.len

/-- `n` covers the address `a`: the top `n.len` bits of the two agree. -/
def Covers (n : Network bits) (a : U128) : Prop :=
  topBits bits a.toNat n.len = n.top

instance (n : Network bits) (a : U128) : Decidable (n.Covers a) :=
  inferInstanceAs (Decidable (_ = _))

theorem topBits_lt {a len : Nat} (hlen : len ≤ bits) (ha : a < 2 ^ bits) :
    topBits bits a len < 2 ^ len := by
  rw [topBits, Nat.div_lt_iff_lt_mul (Nat.two_pow_pos _), ← Nat.pow_add]
  rwa [show len + (bits - len) = bits by omega]

/-- A network address is its top bits, shifted to their place. -/
theorem addr_eq (n : Network bits) : n.addr.toNat = n.top * 2 ^ (bits - n.len) :=
  (Nat.div_mul_cancel (Nat.dvd_of_mod_eq_zero n.host_zero)).symm

theorem ext_top {m n : Network bits} (hlen : m.len = n.len) (htop : m.top = n.top) : m = n := by
  have haddr : m.addr = n.addr := by
    apply BitVec.eq_of_toNat_eq
    rw [m.addr_eq, n.addr_eq, hlen, htop]
  cases m
  cases n
  simp_all

/-- The network of length `len` whose top bits are `top`. -/
def ofTop (hbits : bits ≤ 128) (len top : Nat) (hlen : len ≤ bits) (htop : top < 2 ^ len) :
    Network bits :=
  have hlt : top * 2 ^ (bits - len) < 2 ^ bits := by
    rw [show bits = len + (bits - len) by omega, Nat.pow_add]
    rw [show len + (bits - len) - len = bits - len by omega]
    exact Nat.mul_lt_mul_of_pos_right htop (Nat.two_pow_pos _)
  have hnat : (BitVec.ofNat 128 (top * 2 ^ (bits - len))).toNat = top * 2 ^ (bits - len) := by
    rw [BitVec.toNat_ofNat, Nat.mod_eq_of_lt]
    exact Nat.lt_of_lt_of_le hlt (Nat.pow_le_pow_right Nat.two_pos hbits)
  { addr := BitVec.ofNat 128 (top * 2 ^ (bits - len))
    len := len
    len_le := hlen
    addr_lt := by rw [hnat]; exact hlt
    host_zero := by rw [hnat]; exact Nat.mul_mod_left _ _ }

variable (hbits : bits ≤ 128)

@[simp] theorem ofTop_len {len t : Nat} (hlen : len ≤ bits) (ht : t < 2 ^ len) :
    (ofTop hbits len t hlen ht).len = len := rfl

@[simp] theorem ofTop_top {len t : Nat} (hlen : len ≤ bits) (ht : t < 2 ^ len) :
    (ofTop hbits len t hlen ht).top = t := by
  have hlt : t * 2 ^ (bits - len) < 2 ^ 128 := by
    have h : t * 2 ^ (bits - len) < 2 ^ len * 2 ^ (bits - len) :=
      Nat.mul_lt_mul_of_pos_right ht (Nat.two_pow_pos _)
    rw [← Nat.pow_add, show len + (bits - len) = bits by omega] at h
    exact Nat.lt_of_lt_of_le h (Nat.pow_le_pow_right Nat.two_pos hbits)
  simp only [top, topBits, ofTop, BitVec.toNat_ofNat]
  rw [Nat.mod_eq_of_lt hlt, Nat.mul_div_cancel _ (Nat.two_pow_pos _)]

/-- The network of length `len` that covers the address `a`. -/
def ofAddr (a : U128) (ha : a.toNat < 2 ^ bits) (len : Nat) (hlen : len ≤ bits) : Network bits :=
  ofTop hbits len (topBits bits a.toNat len) hlen (topBits_lt hlen ha)

/-- Of each length there is exactly one network that covers `a`. -/
theorem covers_iff {a : U128} (ha : a.toNat < 2 ^ bits) (n : Network bits) :
    n.Covers a ↔ n = ofAddr hbits a ha n.len n.len_le := by
  refine ⟨?_, ?_⟩
  · intro h
    apply ext_top
    · rfl
    · rw [ofAddr, ofTop_top]
      exact h.symm
  · intro h
    have htop := congrArg top h
    rw [ofAddr, ofTop_top] at htop
    exact htop.symm

end Network

/-! ## Prefixes and networks -/

section Prefix

variable {A : Type} [IpAddress A]

theorem bits_le (A : Type) [IpAddress A] : IpAddress.bits A ≤ 128 := by
  rcases IpAddress.bits_eq (A := A) with h | h <;> omega

/-- Zeroing the low `k` bits leaves nothing below `2 ^ k`. -/
theorem toNat_shift_mod (x : U128) (k : Nat) : (x >>> k <<< k).toNat % 2 ^ k = 0 := by
  rw [BitVec.toNat_shiftLeft, BitVec.toNat_ushiftRight, Nat.shiftRight_eq_div_pow,
    Nat.shiftLeft_eq, Nat.mod_eq_of_lt (Nat.lt_of_le_of_lt (Nat.div_mul_le_self _ _) x.isLt)]
  exact Nat.mul_mod_left _ _

/-- The canonical network of a prefix: what `masked`, `ip().to_u128()` and `mask` give. -/
def network (p : IpPrefix A) : Network (IpAddress.bits A) where
  addr := IpAddress.toU128 (IpAddress.ip (IpAddress.masked p))
  len := IpAddress.mask (IpAddress.masked p)
  len_le := IpAddress.mask_le _
  addr_lt := IpAddress.toU128_lt _
  host_zero := by
    rw [IpAddress.mask_masked, IpAddress.ip_masked]
    exact toNat_shift_mod _ _

@[simp] theorem network_len (p : IpPrefix A) : (network p).len = IpAddress.mask p :=
  IpAddress.mask_masked p

theorem network_addr (p : IpPrefix A) :
    (network p).addr = IpAddress.toU128 (IpAddress.ip p)
      >>> (IpAddress.bits A - IpAddress.mask p) <<< (IpAddress.bits A - IpAddress.mask p) :=
  IpAddress.ip_masked p

/-- The prefix of a network: the masked one. -/
def ofNetwork (n : Network (IpAddress.bits A)) : IpPrefix A :=
  (IpAddress.new (IpAddress.fromU128 n.addr : A) n.len).get
    ((IpAddress.new_isSome _ _).mpr n.len_le)

theorem new_ofNetwork (n : Network (IpAddress.bits A)) :
    IpAddress.new (IpAddress.fromU128 n.addr : A) n.len = some (ofNetwork n) :=
  (Option.some_get _).symm

theorem toU128_ip_ofNetwork (n : Network (IpAddress.bits A)) :
    IpAddress.toU128 (IpAddress.ip (ofNetwork n : IpPrefix A)) = n.addr := by
  rw [IpAddress.ip_new _ _ _ (new_ofNetwork n), IpAddress.toU128_fromU128 _ n.addr_lt]

theorem mask_ofNetwork (n : Network (IpAddress.bits A)) :
    IpAddress.mask (ofNetwork n : IpPrefix A) = n.len :=
  IpAddress.mask_new _ _ _ (new_ofNetwork n)

/-- A prefix is determined by its address as a number and its length. -/
theorem prefix_eq {p q : IpPrefix A}
    (hip : IpAddress.toU128 (IpAddress.ip p) = IpAddress.toU128 (IpAddress.ip q))
    (hmask : IpAddress.mask p = IpAddress.mask q) : p = q := by
  apply IpAddress.prefix_ext _ _ ?_ hmask
  rw [← IpAddress.fromU128_toU128 (IpAddress.ip p), hip, IpAddress.fromU128_toU128]

/-- `masked` gives the prefix of the network. -/
theorem masked_eq (p : IpPrefix A) : IpAddress.masked p = ofNetwork (network p) := by
  apply prefix_eq
  · rw [toU128_ip_ofNetwork]
    rfl
  · rw [mask_ofNetwork]
    rfl

/-- Zeroing the low `k` bits of a number that has none changes nothing. -/
theorem shift_of_mod {x : U128} {k : Nat} (h : x.toNat % 2 ^ k = 0) : x >>> k <<< k = x := by
  apply BitVec.eq_of_toNat_eq
  rw [BitVec.toNat_shiftLeft, BitVec.toNat_ushiftRight, Nat.shiftRight_eq_div_pow,
    Nat.shiftLeft_eq, Nat.div_mul_cancel (Nat.dvd_of_mod_eq_zero h), Nat.mod_eq_of_lt x.isLt]

@[simp] theorem network_ofNetwork (n : Network (IpAddress.bits A)) :
    network (ofNetwork n : IpPrefix A) = n := by
  have hlen : (network (ofNetwork n : IpPrefix A)).len = n.len := by
    rw [network_len, mask_ofNetwork]
  -- a network has no host bits for `masked` to clear
  have haddr : (network (ofNetwork n : IpPrefix A)).addr = n.addr := by
    rw [network_addr, toU128_ip_ofNetwork, mask_ofNetwork]
    exact shift_of_mod n.host_zero
  apply Network.ext_top hlen
  rw [Network.top, Network.top, hlen, haddr]

/-- A prefix in masked form is the prefix of its network. -/
theorem masked_iff (p : IpPrefix A) : IpAddress.masked p = p ↔ ofNetwork (network p) = p := by
  rw [masked_eq]

theorem masked_ofNetwork (n : Network (IpAddress.bits A)) :
    IpAddress.masked (ofNetwork n : IpPrefix A) = ofNetwork n := by
  rw [masked_eq, network_ofNetwork]

@[simp] theorem network_masked (p : IpPrefix A) : network (IpAddress.masked p) = network p := by
  rw [masked_eq, network_ofNetwork]

theorem masked_masked (p : IpPrefix A) :
    IpAddress.masked (IpAddress.masked p) = IpAddress.masked p := by
  rw [masked_eq p, masked_ofNetwork]

end Prefix

/-! ## The two families -/

/-- A prefix over an address of `w` bits. -/
structure WordPrefix (w : Nat) where
  ip : BitVec w
  mask : Nat
  mask_le : mask ≤ w
deriving DecidableEq

/-- The family of the `w`-bit addresses, stored in the low bits of a `u128`. -/
@[reducible] def wordFamily (w : Nat) (hw : w = 32 ∨ w = 128) : IpAddress (BitVec w) where
  Prefix := WordPrefix w
  bits := w
  toU128 a := a.setWidth 128
  fromU128 x := x.setWidth w
  new a len := if h : len ≤ w then some ⟨a, len, h⟩ else none
  ip p := p.ip
  mask p := p.mask
  masked p := { p with ip := p.ip >>> (w - p.mask) <<< (w - p.mask) }
  bits_eq := hw
  toU128_lt a := by
    rw [BitVec.toNat_setWidth_of_le (by omega)]
    exact a.isLt
  fromU128_toU128 a := by
    apply BitVec.eq_of_toNat_eq
    rw [BitVec.toNat_setWidth, BitVec.toNat_setWidth_of_le (by omega), Nat.mod_eq_of_lt a.isLt]
  toU128_fromU128 x hx := by
    apply BitVec.eq_of_toNat_eq
    rw [BitVec.toNat_setWidth_of_le (by omega), BitVec.toNat_setWidth, Nat.mod_eq_of_lt hx]
  new_isSome a len := by
    by_cases h : len ≤ w <;> simp [h]
  ip_new a len p h := by
    split at h
    · cases h; rfl
    · cases h
  mask_new a len p h := by
    split at h
    · cases h; rfl
    · cases h
  mask_le p := p.mask_le
  mask_masked p := rfl
  ip_masked p := by
    apply BitVec.eq_of_toNat_eq
    have hle : p.ip.toNat / 2 ^ (w - p.mask) * 2 ^ (w - p.mask) < 2 ^ w :=
      Nat.lt_of_le_of_lt (Nat.div_mul_le_self _ _) p.ip.isLt
    have hw128 : 2 ^ w ≤ 2 ^ 128 := Nat.pow_le_pow_right Nat.two_pos (by omega)
    simp only [BitVec.toNat_setWidth, BitVec.toNat_shiftLeft, BitVec.toNat_ushiftRight,
      Nat.shiftRight_eq_div_pow, Nat.shiftLeft_eq]
    rw [Nat.mod_eq_of_lt hle, Nat.mod_eq_of_lt (Nat.lt_of_lt_of_le p.ip.isLt hw128)]
  prefix_ext p q hip hmask := by
    cases p
    cases q
    simp_all

abbrev Ipv4Addr := BitVec 32

abbrev Ipv6Addr := BitVec 128

instance : IpAddress Ipv4Addr := wordFamily 32 (Or.inl rfl)

instance : IpAddress Ipv6Addr := wordFamily 128 (Or.inr rfl)

end Routemap
