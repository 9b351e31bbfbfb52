/-
  Routemap.Treebitmap.Codec

  Where a network is stored: its nibble path and its heap position.

  An address is cut into nibbles `nib`, a length `4 k + rel` into `k` full hops
  and `rel` left over bits; the position `posAt` is `2 ^ rel` plus the left over
  bits.  In numbers, the first `k` nibbles are the top `4 k` bits in base 16
  (`pathValue_pathFrom`), and the top bits of a network are those, followed by
  the bits of its position (`top_eq`).  So a network and its slot determine each
  other: `slot_injective`, and `ofSlot` with its two equations.
-/
import Routemap.Ipnetx
import Routemap.Treebitmap.Trie
import Mathlib.Data.Nat.Digits.Defs

namespace Routemap

open Network (topBits)

/-! ## Nibbles -/

/-- The nibble of `a` at stride index `hop`. -/
def nib (bits a hop : Nat) : Nat := topBits bits a (4 * (hop + 1)) % 16

/-- The `k` nibbles of `a` from stride index `hop` on. -/
def pathFrom (bits a hop k : Nat) : List Nat := (List.range' hop k).map (nib bits a)

/-- The heap position of the top `rel` bits of the nibble at stride index `hop`. -/
def posAt (bits a hop rel : Nat) : Nat := 2 ^ rel + nib bits a hop / 2 ^ (4 - rel)

/-- The nibbles of a path as one number. -/
def pathValue (path : List Nat) : Nat := Nat.ofDigits 16 path.reverse

theorem nib_lt (bits a hop : Nat) : nib bits a hop < 16 := Nat.mod_lt _ (Nat.succ_pos _)

@[simp] theorem pathFrom_zero (bits a hop : Nat) : pathFrom bits a hop 0 = [] := rfl

theorem pathFrom_succ (bits a hop k : Nat) :
    pathFrom bits a hop (k + 1) = nib bits a hop :: pathFrom bits a (hop + 1) k := rfl

theorem pathFrom_concat (bits a hop k : Nat) :
    pathFrom bits a hop (k + 1) = pathFrom bits a hop k ++ [nib bits a (hop + k)] := by
  rw [pathFrom, List.range'_concat, List.map_append, Nat.one_mul]
  rfl

@[simp] theorem length_pathFrom (bits a hop k : Nat) : (pathFrom bits a hop k).length = k := by
  simp [pathFrom]

theorem pathFrom_lt {bits a hop k n : Nat} (h : n ∈ pathFrom bits a hop k) : n < 16 := by
  obtain ⟨i, -, rfl⟩ := List.mem_map.mp h
  exact nib_lt bits a i

theorem pathFrom_append (bits a hop j k : Nat) :
    pathFrom bits a hop (j + k) = pathFrom bits a hop j ++ pathFrom bits a (hop + j) k := by
  rw [pathFrom, ← List.range'_append_1, List.map_append]
  rfl

@[simp] theorem pathValue_nil : pathValue [] = 0 := rfl

theorem pathValue_concat (path : List Nat) (n : Nat) :
    pathValue (path ++ [n]) = 16 * pathValue path + n := by
  rw [pathValue, List.reverse_append, List.reverse_singleton, List.singleton_append,
    Nat.ofDigits_cons, Nat.add_comm, pathValue]

theorem pathValue_lt {path : List Nat} (h : ∀ n ∈ path, n < 16) :
    pathValue path < 2 ^ (4 * path.length) := by
  have hlt := Nat.ofDigits_lt_base_pow_length (b := 16) (l := path.reverse) (by decide)
    (fun n hn => h n (List.mem_reverse.mp hn))
  rwa [List.length_reverse, show (16 : Nat) = 2 ^ 4 from rfl, ← Nat.pow_mul] at hlt

theorem pathValue_inj {path path' : List Nat} (hlen : path.length = path'.length)
    (h : ∀ n ∈ path, n < 16) (h' : ∀ n ∈ path', n < 16)
    (hval : pathValue path = pathValue path') : path = path' := by
  have hrev := Nat.ofDigits_inj_of_len_eq (b := 16) (by decide) (by simpa using hlen)
    (fun n hn => h n (List.mem_reverse.mp hn)) (fun n hn => h' n (List.mem_reverse.mp hn)) hval
  exact List.reverse_inj.mp hrev

/-! ## Top bits and nibbles -/

section TopBits

variable {bits a b : Nat}

/-- Fewer top bits are the more ones, shifted down. -/
theorem topBits_div (a : Nat) {len j : Nat} (h : len + j ≤ bits) :
    topBits bits a len = topBits bits a (len + j) / 2 ^ j := by
  rw [topBits, topBits, Nat.div_div_eq_div_mul, ← Nat.pow_add]
  congr 2
  omega

theorem topBits_zero (ha : a < 2 ^ bits) : topBits bits a 0 = 0 := Nat.div_eq_of_lt ha

theorem topBits_stride {k : Nat} (h : 4 * (k + 1) ≤ bits) :
    topBits bits a (4 * (k + 1)) = 16 * topBits bits a (4 * k) + nib bits a k := by
  have hle : 4 * k + 4 ≤ bits := by omega
  rw [topBits_div a hle, nib, show 4 * k + 4 = 4 * (k + 1) by omega]
  exact (Nat.div_add_mod _ 16).symm

/-- The nibbles from the root on are the top bits in base 16. -/
theorem pathValue_pathFrom {k : Nat} (ha : a < 2 ^ bits) (h : 4 * k ≤ bits) :
    pathValue (pathFrom bits a 0 k) = topBits bits a (4 * k) := by
  induction k with
  | zero => exact (topBits_zero ha).symm
  | succ k ih =>
      rw [pathFrom_concat, pathValue_concat, ih (by omega), topBits_stride h, Nat.zero_add]

/-- The left over bits of a length are the top bits of the next nibble. -/
theorem topBits_rel (a : Nat) {k rel : Nat} (hrel : rel < 4) (hlen : 0 < rel → 4 * (k + 1) ≤ bits) :
    topBits bits a (4 * k + rel)
      = 2 ^ rel * topBits bits a (4 * k) + nib bits a k / 2 ^ (4 - rel) := by
  rcases Nat.eq_zero_or_pos rel with rfl | hpos
  · have hzero : nib bits a k / 2 ^ (4 - 0) = 0 := Nat.div_eq_of_lt (nib_lt bits a k)
    rw [hzero]
    simp
  · have h := hlen hpos
    have hle : 4 * k + rel + (4 - rel) ≤ bits := by omega
    rw [topBits_div a hle, show 4 * k + rel + (4 - rel) = 4 * (k + 1) by omega, topBits_stride h,
      show (16 : Nat) = 2 ^ (4 - rel) * 2 ^ rel by
        rw [← Nat.pow_add, show 4 - rel + rel = 4 by omega],
      Nat.mul_assoc, Nat.mul_add_div (Nat.two_pow_pos _)]

/-- The top `rel` bits of a nibble are a number of `rel` bits. -/
theorem nib_div_lt {nib rel : Nat} (hnib : nib < 16) (hrel : rel < 4) :
    nib / 2 ^ (4 - rel) < 2 ^ rel := by
  rw [Nat.div_lt_iff_lt_mul (Nat.two_pow_pos _), ← Nat.pow_add, show rel + (4 - rel) = 4 by omega]
  exact hnib

theorem posAt_lt {hop rel : Nat} (hrel : rel < 4) : posAt bits a hop rel < 2 ^ (rel + 1) := by
  have h := nib_div_lt (nib_lt bits a hop) hrel
  rw [posAt, Nat.pow_succ]
  omega

theorem posAt_pos (bits a hop rel : Nat) : 1 ≤ posAt bits a hop rel := by
  rw [posAt]
  exact Nat.le_add_right_of_le Nat.one_le_two_pow

theorem log2_posAt {hop rel : Nat} (hrel : rel < 4) : (posAt bits a hop rel).log2 = rel := by
  have hpos := posAt_pos bits a hop rel
  rw [Nat.log2_eq_iff (by omega)]
  exact ⟨Nat.le_add_right _ _, posAt_lt hrel⟩

/-- The slot that `hopsLeft` full hops from stride index `hop` and `rel` left
    over bits lead to, in the tree of the node reached at `hop`. -/
theorem slot_of_addr {hop k h rel : Nat} (hk : k ≤ h) (hrel : rel < 4) (hbot : k = h → rel = 0) :
    TbNode.Slot h (pathFrom bits a hop k) (posAt bits a (hop + k) rel) where
  length_le := by simpa using hk
  nibble_lt n hn := pathFrom_lt hn
  pos := posAt_pos _ _ _ _
  lt := Nat.lt_of_lt_of_le (posAt_lt hrel) (Nat.pow_le_pow_right (j := 4) Nat.two_pos (by omega))
  bottom hlen := by
    have hzero : nib bits a (hop + k) / 2 ^ (4 - 0) = 0 := Nat.div_eq_of_lt (nib_lt bits a _)
    rw [hbot (by simpa using hlen), posAt, hzero]
    rfl

/-- Addresses that agree on their top `len` bits agree on every nibble in them. -/
theorem nib_congr {len hop : Nat} (hlen : len ≤ bits) (hhop : 4 * (hop + 1) ≤ len)
    (h : topBits bits a len = topBits bits b len) : nib bits a hop = nib bits b hop := by
  -- a nibble in the top `len` bits can be read off them
  have hdiv : ∀ x, topBits bits x (4 * (hop + 1))
      = topBits bits x len / 2 ^ (len - 4 * (hop + 1)) := by
    intro x
    have hle : 4 * (hop + 1) + (len - 4 * (hop + 1)) ≤ bits := by omega
    rw [topBits_div x hle]
    congr 2
    omega
  rw [nib, nib, hdiv a, hdiv b, h]

theorem pathFrom_congr {len k : Nat} (hlen : len ≤ bits) (hk : 4 * k ≤ len)
    (h : topBits bits a len = topBits bits b len) :
    pathFrom bits a 0 k = pathFrom bits b 0 k := by
  apply List.map_congr_left
  intro hop hhop
  rw [List.mem_range'_1] at hhop
  exact nib_congr hlen (by omega) h

/-- The top `len` bits of an address determine its slot for length `len`. -/
theorem posAt_congr {len : Nat} (hdvd : 4 ∣ bits) (hlen : len ≤ bits) (ha : a < 2 ^ bits)
    (hb : b < 2 ^ bits) (h : topBits bits a len = topBits bits b len) :
    posAt bits a (len / 4) (len % 4) = posAt bits b (len / 4) (len % 4) := by
  have hrel : len % 4 < 4 := Nat.mod_lt _ (Nat.succ_pos _)
  have hdiv : len = 4 * (len / 4) + len % 4 := (Nat.div_add_mod len 4).symm
  -- the whole nibbles agree, so the left over bits do too
  have hpath := pathFrom_congr (k := len / 4) hlen (by omega) h
  have htop := congrArg pathValue hpath
  rw [pathValue_pathFrom ha (by omega), pathValue_pathFrom hb (by omega)] at htop
  have hnext : 0 < len % 4 → 4 * (len / 4 + 1) ≤ bits := by omega
  rw [hdiv, topBits_rel a hrel hnext, topBits_rel b hrel hnext, htop] at h
  rw [posAt, posAt, Nat.add_left_cancel h]

end TopBits

/-! ## Slots of networks -/

namespace Network

variable {bits : Nat}

/-- The nibbles that lead to the node of a network. -/
def path (n : Network bits) : List Nat := pathFrom bits n.addr.toNat 0 (n.len / 4)

/-- The heap position of a network in its node. -/
def pos (n : Network bits) : Nat := posAt bits n.addr.toNat (n.len / 4) (n.len % 4)

@[simp] theorem length_path (n : Network bits) : n.path.length = n.len / 4 := length_pathFrom ..

theorem path_lt (n : Network bits) {m : Nat} (hm : m ∈ n.path) : m < 16 := pathFrom_lt hm

theorem log2_pos (n : Network bits) : n.pos.log2 = n.len % 4 :=
  log2_posAt (Nat.mod_lt _ (Nat.succ_pos _))

theorem slot (hdvd : 4 ∣ bits) (n : Network bits) : TbNode.Slot (bits / 4) n.path n.pos := by
  have hlen := n.len_le
  have h : TbNode.Slot (bits / 4) n.path (posAt bits n.addr.toNat (0 + n.len / 4) (n.len % 4)) :=
    slot_of_addr (by omega) (Nat.mod_lt _ (Nat.succ_pos _)) (by omega)
  rwa [Nat.zero_add] at h

/-- The top bits of a network are the nibbles of its path followed by the bits
    of its position. -/
theorem top_eq (hdvd : 4 ∣ bits) (n : Network bits) :
    n.top + 2 ^ (n.len % 4) = 2 ^ (n.len % 4) * pathValue n.path + n.pos := by
  have hlen := n.len_le
  have hnext : 0 < n.len % 4 → 4 * (n.len / 4 + 1) ≤ bits := by omega
  have hrel := topBits_rel n.addr.toNat (Nat.mod_lt n.len (Nat.succ_pos _)) hnext
  rw [Nat.div_add_mod] at hrel
  rw [top, hrel, path, pathValue_pathFrom n.addr_lt (by omega), pos, posAt]
  omega

/-- A network is determined by its slot. -/
theorem slot_injective (hdvd : 4 ∣ bits) {m n : Network bits} (hpath : m.path = n.path)
    (hpos : m.pos = n.pos) : m = n := by
  -- the length can be read off the slot, and the top bits are put together from it
  have hdiv : m.len / 4 = n.len / 4 := by rw [← length_path, hpath, length_path]
  have hmod : m.len % 4 = n.len % 4 := by rw [← log2_pos, hpos, log2_pos]
  have hlen : m.len = n.len := by omega
  apply ext_top hlen
  have hm := top_eq hdvd m
  rw [hpath, hpos, hlen, ← top_eq hdvd n] at hm
  omega

/-- The network stored in a slot. -/
def ofSlot (hbits : bits ≤ 128) (hdvd : 4 ∣ bits) {p : List Nat} {q : Nat}
    (s : TbNode.Slot (bits / 4) p q) : Network bits :=
  have hq : q ≠ 0 := Nat.one_le_iff_ne_zero.mp s.pos
  have hlow : 2 ^ q.log2 ≤ q := Nat.log2_self_le hq
  have hhigh : q < 2 ^ (q.log2 + 1) := Nat.lt_log2_self
  have hlen : 4 * p.length + q.log2 ≤ bits := by
    have hlog : q.log2 < 4 := (Nat.log2_lt hq).mpr s.lt
    have hle := s.length_le
    -- at the bottom there are no left over bits to add
    by_cases hbot : p.length = bits / 4
    · rw [s.bottom hbot, show Nat.log2 1 = 0 from rfl]
      omega
    · omega
  have htop : 2 ^ q.log2 * pathValue p + (q - 2 ^ q.log2) < 2 ^ (4 * p.length + q.log2) := by
    have hval := pathValue_lt s.nibble_lt
    have hmul : 2 ^ q.log2 * (pathValue p + 1) ≤ 2 ^ q.log2 * 2 ^ (4 * p.length) :=
      Nat.mul_le_mul_left _ hval
    rw [Nat.pow_succ] at hhigh
    rw [Nat.mul_add, Nat.mul_one] at hmul
    rw [Nat.pow_add, Nat.mul_comm (2 ^ (4 * p.length))]
    omega
  ofTop hbits _ _ hlen htop

section OfSlot

variable (hbits : bits ≤ 128) (hdvd : 4 ∣ bits) {p : List Nat} {q : Nat}
  (s : TbNode.Slot (bits / 4) p q)

theorem ofSlot_len : (ofSlot hbits hdvd s).len = 4 * p.length + q.log2 := rfl

theorem ofSlot_top : (ofSlot hbits hdvd s).top = 2 ^ q.log2 * pathValue p + (q - 2 ^ q.log2) := by
  rw [ofSlot, ofTop_top]

theorem ofSlot_path_pos : (ofSlot hbits hdvd s).path = p ∧ (ofSlot hbits hdvd s).pos = q := by
  have hq : q ≠ 0 := Nat.one_le_iff_ne_zero.mp s.pos
  have hlow : 2 ^ q.log2 ≤ q := Nat.log2_self_le hq
  have hhigh : q < 2 ^ (q.log2 + 1) := Nat.lt_log2_self
  have hlog : q.log2 < 4 := (Nat.log2_lt hq).mpr s.lt
  have hmod : (ofSlot hbits hdvd s).len % 4 = q.log2 := by
    rw [ofSlot_len]
    omega
  have hdiv : (ofSlot hbits hdvd s).len / 4 = p.length := by
    rw [ofSlot_len]
    omega
  have heq := top_eq hdvd (ofSlot hbits hdvd s)
  have hpos : posAt bits (ofSlot hbits hdvd s).addr.toNat ((ofSlot hbits hdvd s).len / 4) q.log2
      < 2 ^ (q.log2 + 1) := posAt_lt hlog
  have hpos' : 2 ^ q.log2 ≤ (ofSlot hbits hdvd s).pos := by
    rw [pos, posAt, hmod]
    exact Nat.le_add_right _ _
  rw [← hmod, ← pos, hmod, Nat.pow_succ] at hpos
  rw [hmod, ofSlot_top] at heq
  rw [Nat.pow_succ] at hhigh
  -- quotient and remainder of one number by `2 ^ q.log2`
  have hval : pathValue (ofSlot hbits hdvd s).path = pathValue p := by
    have hdivmod : ∀ x r, r < 2 ^ q.log2 → (2 ^ q.log2 * x + r) / 2 ^ q.log2 = x := by
      intro x r hr
      rw [Nat.mul_add_div (Nat.two_pow_pos _), Nat.div_eq_of_lt hr, Nat.add_zero]
    rw [← hdivmod (pathValue (ofSlot hbits hdvd s).path)
        ((ofSlot hbits hdvd s).pos - 2 ^ q.log2) (by omega),
      ← hdivmod (pathValue p) (q - 2 ^ q.log2) (by omega)]
    congr 1
    omega
  have hpath : (ofSlot hbits hdvd s).path = p :=
    pathValue_inj (by rw [length_path, hdiv]) (fun m hm => path_lt _ hm) s.nibble_lt hval
  refine ⟨hpath, ?_⟩
  rw [hval] at heq
  omega

theorem ofSlot_path : (ofSlot hbits hdvd s).path = p := (ofSlot_path_pos hbits hdvd s).1

theorem ofSlot_pos : (ofSlot hbits hdvd s).pos = q := (ofSlot_path_pos hbits hdvd s).2

end OfSlot

/-! ### Networks that cover an address -/

variable (hbits : bits ≤ 128)

theorem top_ofAddr (a : U128) (ha : a.toNat < 2 ^ bits) (len : Nat) (hlen : len ≤ bits) :
    topBits bits (ofAddr hbits a ha len hlen).addr.toNat len = topBits bits a.toNat len :=
  ofTop_top ..

/-- The network of length `len` that covers `a` is stored where the nibbles of
    `a` lead. -/
theorem path_ofAddr (a : U128) (ha : a.toNat < 2 ^ bits) (len : Nat) (hlen : len ≤ bits) :
    (ofAddr hbits a ha len hlen).path = pathFrom bits a.toNat 0 (len / 4) :=
  pathFrom_congr (k := len / 4) hlen (by omega) (top_ofAddr hbits a ha len hlen)

theorem pos_ofAddr (hdvd : 4 ∣ bits) (a : U128) (ha : a.toNat < 2 ^ bits) (len : Nat)
    (hlen : len ≤ bits) :
    (ofAddr hbits a ha len hlen).pos = posAt bits a.toNat (len / 4) (len % 4) :=
  posAt_congr hdvd hlen (addr_lt _) ha (top_ofAddr hbits a ha len hlen)

/-- Of two networks that cover an address, the shorter one covers the longer one. -/
theorem covers_of_covers {a : U128} {n k : Network bits} (hn : n.Covers a) (hk : k.Covers a)
    (hlen : n.len ≤ k.len) : n.Covers k.addr := by
  obtain ⟨j, hj⟩ := Nat.exists_eq_add_of_le hlen
  have hle : n.len + j ≤ bits := hj ▸ k.len_le
  rw [Covers, top] at hn hk ⊢
  rw [hj] at hk
  rw [topBits_div _ hle, ← hk, ← topBits_div _ hle, hn]

end Network
end Routemap
