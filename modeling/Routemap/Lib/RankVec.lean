/-
  Routemap.Lib.RankVec

  Sparse arrays stored without gaps.  A predicate `p` on positions says which
  are present, a list holds one item for each present position in order, and
  the item of position `q` is found at index `rank p q`, the number of present
  positions below `q`.

  * `look p xs q` is the sparse array read at `q`.
  * `Fits p w xs` says that the two parts belong together: all present positions
    are below `w`, and there are as many items.
  * Setting a position, overwriting an item and clearing a position, with the
    matching list operation at the rank, are the updates of the sparse array.
  * `assoc p xs lo hi` lists the present positions with their items.

  The last section reads a `BitVec` as a predicate: masked population counts
  are ranks, and the count of leading or trailing zeros finds the extreme bits.
-/
import Mathlib.Data.Nat.Count
import Mathlib.Data.List.InsertIdx
import Mathlib.Data.List.Sort
import Mathlib.Logic.Function.Basic

namespace RankVec

variable {α : Type*}

/-- Present positions below `q`. -/
def rank (p : Nat → Bool) (q : Nat) : Nat := Nat.count (fun i => p i = true) q

/-- The item at position `q`, if it is present. -/
def look (p : Nat → Bool) (xs : List α) (q : Nat) : Option α :=
  if p q then xs[rank p q]? else none

/-- The items after writing `x` at position `q`. -/
def put (p : Nat → Bool) (xs : List α) (q : Nat) (x : α) : List α :=
  if p q then xs.set (rank p q) x else xs.insertIdx (rank p q) x

/-- An inserted item overwritten is the other item inserted. -/
theorem set_insertIdx_self {xs : List α} {i : Nat} (hi : i ≤ xs.length) (x y : α) :
    (xs.insertIdx i x).set i y = xs.insertIdx i y := by
  have hne : i ≠ (xs.insertIdx i x).length := by
    rw [List.length_insertIdx_of_le_length hi]
    omega
  rw [← List.insertIdx_eraseIdx_self hne, List.eraseIdx_insertIdx_self]

/-- `xs` holds an item for each position of `p`, all of which are below `w`. -/
structure Fits (p : Nat → Bool) (w : Nat) (xs : List α) : Prop where
  bound : ∀ q, p q = true → q < w
  length_eq : xs.length = rank p w

/-! ## Ranks -/

@[simp] theorem rank_zero (p : Nat → Bool) : rank p 0 = 0 := Nat.count_zero _

theorem rank_succ (p : Nat → Bool) (q : Nat) :
    rank p (q + 1) = rank p q + if p q then 1 else 0 := Nat.count_succ _ _

theorem rank_mono (p : Nat → Bool) {q r : Nat} (h : q ≤ r) : rank p q ≤ rank p r :=
  Nat.count_monotone _ h

/-- The rank grows past a present position. -/
theorem rank_lt {p : Nat → Bool} {q r : Nat} (hq : p q = true) (h : q < r) :
    rank p q < rank p r :=
  Nat.count_strict_mono hq h

/-- Setting a clear position raises the ranks above it by one. -/
theorem rank_set {p : Nat → Bool} {q : Nat} (hq : p q = false) (r : Nat) :
    rank (Function.update p q true) r = rank p r + if q < r then 1 else 0 := by
  induction r with
  | zero => simp
  | succ r ih =>
      rw [rank_succ, rank_succ, ih]
      by_cases h : r = q
      · -- the position set now is counted from here on
        subst h
        simp [hq]
      · have hlt : q < r + 1 ↔ q < r := by omega
        simp only [Function.update_of_ne h, hlt]
        omega

/-- Clearing a present position lowers the ranks above it by one. -/
theorem rank_clear {p : Nat → Bool} {q : Nat} (hq : p q = true) (r : Nat) :
    rank p r = rank (Function.update p q false) r + if q < r then 1 else 0 := by
  have h := rank_set (p := Function.update p q false) (q := q) (by simp) r
  rwa [Function.update_idem, ← hq, Function.update_eq_self] at h

/-- Every number below the rank of `w` is the rank of a present position. -/
theorem exists_rank_eq {p : Nat → Bool} {w i : Nat} (h : i < rank p w) :
    ∃ q < w, p q = true ∧ rank p q = i := by
  induction w with
  | zero => simp at h
  | succ w ih =>
      by_cases hi : i < rank p w
      · obtain ⟨q, hq, hp, hr⟩ := ih hi
        exact ⟨q, by omega, hp, hr⟩
      · -- `i` is the rank of the last position, which has to be present
        rw [rank_succ] at h
        by_cases hw : p w = true
        · rw [if_pos hw] at h
          exact ⟨w, by omega, hw, by omega⟩
        · rw [if_neg hw] at h
          omega

/-! ## Reading -/

theorem look_of_clear {p : Nat → Bool} {q : Nat} (hq : p q = false) (xs : List α) :
    look p xs q = none := by
  simp [look, hq]

theorem look_of_set {p : Nat → Bool} {q : Nat} (hq : p q = true) (xs : List α) :
    look p xs q = xs[rank p q]? := by
  simp [look, hq]

/-- What is read is the item at the rank of a present position. -/
theorem look_eq_some {p : Nat → Bool} {xs : List α} {q : Nat} {x : α} :
    look p xs q = some x ↔ p q = true ∧ xs[rank p q]? = some x := by
  cases hq : p q with
  | false => simp [look_of_clear hq]
  | true => simp [look_of_set hq]

namespace Fits

variable {p : Nat → Bool} {w : Nat} {xs : List α}

theorem empty (w : Nat) : Fits (fun _ => false) w ([] : List α) where
  bound q hq := by cases hq
  length_eq := by
    induction w with
    | zero => rfl
    | succ w ih => rw [rank_succ, ← ih]; rfl

/-- The index of a present position is in bounds. -/
theorem rank_lt (h : Fits p w xs) {q : Nat} (hq : p q = true) : rank p q < xs.length := by
  rw [h.length_eq]
  exact RankVec.rank_lt hq (h.bound q hq)

/-- Beyond the bound there is nothing to count. -/
theorem rank_of_le (h : Fits p w xs) {w' : Nat} (hw : w ≤ w') : rank p w' = rank p w := by
  induction w' with
  | zero => rw [Nat.le_zero.mp hw]
  | succ w' ih =>
      rcases Nat.lt_or_ge w (w' + 1) with hlt | hge
      · have hclear : p w' = false := by
          by_contra hset
          have := h.bound w' (by simpa using hset)
          omega
        rw [rank_succ, hclear, ih (by omega)]
        rfl
      · rw [Nat.le_antisymm hw hge]

theorem mono (h : Fits p w xs) {w' : Nat} (hw : w ≤ w') : Fits p w' xs where
  bound q hq := Nat.lt_of_lt_of_le (h.bound q hq) hw
  length_eq := by rw [h.length_eq, h.rank_of_le hw]

/-- The index of any position is an insertion point. -/
theorem rank_le (h : Fits p w xs) {q : Nat} (hq : q ≤ w) : rank p q ≤ xs.length := by
  rw [h.length_eq]
  exact rank_mono p hq

theorem look_isSome (h : Fits p w xs) (q : Nat) : (look p xs q).isSome = p q := by
  cases hq : p q with
  | false => rw [look_of_clear hq, Option.isSome_none]
  | true => rw [look_of_set hq, List.getElem?_eq_getElem (h.rank_lt hq), Option.isSome_some]

theorem look_eq_none (h : Fits p w xs) (q : Nat) : look p xs q = none ↔ p q = false := by
  rw [← h.look_isSome q, Option.isSome_eq_false_iff, Option.isNone_iff_eq_none]

/-- An item read is an item stored. -/
theorem mem_of_look {q : Nat} {x : α} (h : look p xs q = some x) : x ∈ xs :=
  List.mem_of_getElem? (look_eq_some.mp h).2

/-- An item stored is read at some position. -/
theorem exists_look (h : Fits p w xs) {x : α} (hx : x ∈ xs) : ∃ q < w, look p xs q = some x := by
  obtain ⟨i, hi, rfl⟩ := List.getElem_of_mem hx
  obtain ⟨q, hq, hp, rfl⟩ := exists_rank_eq (h.length_eq ▸ hi)
  exact ⟨q, hq, by rw [look_of_set hp, List.getElem?_eq_getElem hi]⟩

/-- Two sparse arrays that read the same are the same. -/
theorem ext {p' : Nat → Bool} {ys : List α} (h : Fits p w xs) (h' : Fits p' w ys)
    (hlook : ∀ q, look p xs q = look p' ys q) : p = p' ∧ xs = ys := by
  -- what can be read tells which positions are present
  have hp : p = p' := by
    funext q
    rw [← h.look_isSome q, ← h'.look_isSome q, hlook q]
  subst hp
  refine ⟨rfl, List.ext_getElem (by rw [h.length_eq, h'.length_eq]) ?_⟩
  intro i hi hi'
  -- an index is the rank of a position, and the two lists are read there
  obtain ⟨q, -, hq, rfl⟩ := exists_rank_eq (h.length_eq ▸ hi)
  have hread := hlook q
  rw [look_of_set hq, look_of_set hq, List.getElem?_eq_getElem hi,
    List.getElem?_eq_getElem hi'] at hread
  exact Option.some.inj hread

/-! ## Updates -/

/-- Inserting an item at the rank of a clear position, and setting the position. -/
theorem insert (h : Fits p w xs) {q : Nat} (hq : p q = false) (hqw : q < w) (x : α) :
    Fits (Function.update p q true) w (xs.insertIdx (rank p q) x) where
  bound r hr := by
    by_cases hrq : r = q
    · omega
    · rw [Function.update_of_ne hrq] at hr
      exact h.bound r hr
  length_eq := by
    rw [List.length_insertIdx_of_le_length (h.rank_le (Nat.le_of_lt hqw)), rank_set hq,
      if_pos hqw, h.length_eq]

theorem look_insert (h : Fits p w xs) {q : Nat} (hq : p q = false) (hqw : q < w) (x : α)
    (r : Nat) :
    look (Function.update p q true) (xs.insertIdx (rank p q) x) r
      = if r = q then some x else look p xs r := by
  have hle := h.rank_le (Nat.le_of_lt hqw)
  by_cases hrq : r = q
  · subst hrq
    rw [if_pos rfl, look_of_set (by simp), rank_set hq, if_neg (Nat.lt_irrefl _), Nat.add_zero,
      List.getElem?_insertIdx_self, if_pos hle]
  · rw [if_neg hrq]
    cases hr : p r with
    | false => rw [look_of_clear hr, look_of_clear (by rw [Function.update_of_ne hrq, hr])]
    | true =>
        rw [look_of_set hr, look_of_set (by rw [Function.update_of_ne hrq, hr]), rank_set hq]
        -- the items above `q` moved up by one, as their ranks did
        rcases Nat.lt_or_gt_of_ne hrq with hlt | hgt
        · have hrank := RankVec.rank_lt hr hlt
          rw [if_neg (by omega), Nat.add_zero, List.getElem?_insertIdx_of_lt hrank]
        · have hrank := rank_mono p (Nat.le_of_lt hgt)
          rw [if_pos hgt, List.getElem?_insertIdx_of_gt (by omega), Nat.add_sub_cancel]

/-- Overwriting the item of a present position. -/
theorem set (h : Fits p w xs) (i : Nat) (x : α) : Fits p w (xs.set i x) where
  bound := h.bound
  length_eq := by rw [List.length_set, h.length_eq]

theorem look_set (h : Fits p w xs) {q : Nat} (hq : p q = true) (x : α) (r : Nat) :
    look p (xs.set (rank p q) x) r = if r = q then some x else look p xs r := by
  by_cases hrq : r = q
  · subst hrq
    rw [if_pos rfl, look_of_set hq, List.getElem?_set_self (h.rank_lt hq)]
  · rw [if_neg hrq]
    cases hr : p r with
    | false => rw [look_of_clear hr, look_of_clear hr]
    | true =>
        -- present positions have different ranks
        have hne : rank p q ≠ rank p r := fun heq => hrq (Nat.count_injective hr hq heq.symm)
        rw [look_of_set hr, look_of_set hr, List.getElem?_set_ne hne]

/-- Writing an item at any position: overwritten if present, inserted if not. -/
theorem put (h : Fits p w xs) {q : Nat} (hqw : q < w) (x : α) :
    Fits (Function.update p q true) w (RankVec.put p xs q x) := by
  unfold RankVec.put
  split
  case isTrue hq =>
    rw [← hq, Function.update_eq_self]
    exact h.set _ x
  case isFalse hq => exact h.insert (by simpa using hq) hqw x

theorem look_put (h : Fits p w xs) {q : Nat} (hqw : q < w) (x : α) (r : Nat) :
    look (Function.update p q true) (RankVec.put p xs q x) r
      = if r = q then some x else look p xs r := by
  unfold RankVec.put
  split
  case isTrue hq =>
    rw [← h.look_set hq x r]
    congr 1
    rw [← hq, Function.update_eq_self]
  case isFalse hq => exact h.look_insert (by simpa using hq) hqw x r

/-- Removing the item of a present position, and clearing the position. -/
theorem erase (h : Fits p w xs) {q : Nat} (hq : p q = true) :
    Fits (Function.update p q false) w (xs.eraseIdx (rank p q)) where
  bound r hr := by
    by_cases hrq : r = q
    · subst hrq
      exact h.bound r hq
    · rw [Function.update_of_ne hrq] at hr
      exact h.bound r hr
  length_eq := by
    have hrank := rank_clear hq w
    rw [if_pos (h.bound q hq)] at hrank
    rw [List.length_eraseIdx_of_lt (h.rank_lt hq), h.length_eq, hrank, Nat.add_sub_cancel]

end Fits

theorem look_erase {p : Nat → Bool} {xs : List α} {q : Nat} (hq : p q = true) (r : Nat) :
    look (Function.update p q false) (xs.eraseIdx (rank p q)) r
      = if r = q then none else look p xs r := by
  by_cases hrq : r = q
  · subst hrq
    rw [if_pos rfl, look_of_clear (by simp)]
  · rw [if_neg hrq]
    cases hr : p r with
    | false => rw [look_of_clear hr, look_of_clear (by rw [Function.update_of_ne hrq, hr])]
    | true =>
        have hrank := rank_clear hq r
        rw [look_of_set hr, look_of_set (by rw [Function.update_of_ne hrq, hr])]
        -- the items above `q` moved down by one, as their ranks did
        rcases Nat.lt_or_gt_of_ne hrq with hlt | hgt
        · have hlt' := RankVec.rank_lt hr hlt
          rw [if_neg (by omega)] at hrank
          rw [List.getElem?_eraseIdx_of_lt (by omega), hrank, Nat.add_zero]
        · have hgt' := RankVec.rank_lt hq hgt
          rw [if_pos hgt] at hrank
          rw [List.getElem?_eraseIdx_of_ge (by omega), ← hrank]

/-! ## Listing -/

/-- The present positions from `lo` up to `hi`, each with its item. -/
def assoc (p : Nat → Bool) (xs : List α) (lo hi : Nat) : List (Nat × α) :=
  (List.range' lo (hi - lo)).filterMap fun q => (look p xs q).map (Prod.mk q)

theorem mem_assoc {p : Nat → Bool} {xs : List α} {lo hi q : Nat} {x : α} :
    (q, x) ∈ assoc p xs lo hi ↔ lo ≤ q ∧ q < hi ∧ look p xs q = some x := by
  simp only [assoc, List.mem_filterMap, List.mem_range'_1, Option.map_eq_some_iff, Prod.mk.injEq]
  refine ⟨?_, ?_⟩
  · rintro ⟨r, hr, y, hy, rfl, rfl⟩
    exact ⟨hr.1, by omega, hy⟩
  · rintro ⟨hlo, hhi, hx⟩
    exact ⟨q, ⟨hlo, by omega⟩, x, hx, rfl, rfl⟩

/-- Positions are listed in increasing order. -/
theorem assoc_sorted (p : Nat → Bool) (xs : List α) (lo hi : Nat) :
    (assoc p xs lo hi).Pairwise fun a b => a.1 < b.1 := by
  refine List.Pairwise.filterMap _ ?_ (List.pairwise_lt_range' (s := lo) (n := hi - lo))
  intro q r hqr a ha b hb
  obtain ⟨x, -, rfl⟩ := Option.map_eq_some_iff.mp ha
  obtain ⟨y, -, rfl⟩ := Option.map_eq_some_iff.mp hb
  exact hqr

/-- Nothing is listed from a range without present positions. -/
theorem assoc_eq_nil {p : Nat → Bool} {lo hi : Nat} (xs : List α)
    (h : ∀ q, lo ≤ q → q < hi → p q = false) : assoc p xs lo hi = [] := by
  rw [assoc, List.filterMap_eq_nil_iff]
  intro q hq
  rw [List.mem_range'_1] at hq
  rw [look_of_clear (h q hq.1 (by omega)), Option.map_none]

/-- The first present position heads the list. -/
theorem assoc_eq_cons {p : Nat → Bool} {xs : List α} {lo hi q : Nat} {x : α} (hlo : lo ≤ q)
    (hhi : q < hi) (hskip : ∀ r, lo ≤ r → r < q → p r = false) (hx : look p xs q = some x) :
    assoc p xs lo hi = (q, x) :: assoc p xs (q + 1) hi := by
  have hnil := assoc_eq_nil xs hskip
  -- the range is what is skipped, `q`, and the rest
  have hsplit : List.range' lo (hi - lo)
      = List.range' lo (q - lo) ++ q :: List.range' (q + 1) (hi - (q + 1)) := by
    rw [show hi - lo = (q - lo) + (hi - (q + 1) + 1) by omega, ← List.range'_append_1,
      List.range'_succ, show lo + (q - lo) = q by omega]
  unfold assoc at hnil ⊢
  rw [hsplit, List.filterMap_append, hnil, List.nil_append, List.filterMap_cons, hx]
  rfl

/-- A clear position at the start of a range lists nothing. -/
theorem assoc_of_clear {p : Nat → Bool} {lo hi : Nat} (hlt : lo < hi) (hlo : p lo = false)
    (xs : List α) : assoc p xs lo hi = assoc p xs (lo + 1) hi := by
  rw [assoc, assoc, show hi - lo = hi - (lo + 1) + 1 by omega, List.range'_succ,
    List.filterMap_cons, look_of_clear hlo]
  rfl

/-- The items of the positions below `hi` are the first ones stored. -/
theorem Fits.map_snd_assoc {p : Nat → Bool} {w : Nat} {xs : List α} (h : Fits p w xs) (hi : Nat) :
    (assoc p xs 0 hi).map Prod.snd = xs.take (rank p hi) := by
  induction hi with
  | zero => simp [assoc]
  | succ hi ih =>
      rw [assoc, Nat.sub_zero] at ih ⊢
      rw [List.range'_concat, List.filterMap_append, List.map_append, ih, rank_succ, Nat.zero_add,
        Nat.one_mul]
      cases hp : p hi with
      | false => simp [look_of_clear hp]
      | true =>
          have hlt := h.rank_lt hp
          rw [if_pos rfl, ← List.take_concat_get hlt, List.concat_eq_append]
          simp [look_of_set hp, List.getElem?_eq_getElem hlt]

/-- The listing has every item stored, in the order of the storage. -/
theorem Fits.assoc_snd {p : Nat → Bool} {w : Nat} {xs : List α} (h : Fits p w xs) :
    (assoc p xs 0 w).map Prod.snd = xs := by
  rw [h.map_snd_assoc, ← h.length_eq, List.take_length]

/-! ## Bit vectors as position predicates -/

section BitVec

variable {w : Nat}

theorem toNat_cpop (b : BitVec w) : b.cpop.toNat = rank b.getLsbD w := by
  -- both count the set bits from the lowest one up
  have hrec : ∀ n, b.cpopNatRec n 0 = rank b.getLsbD n := by
    intro n
    induction n with
    | zero => rfl
    | succ n ih =>
        rw [BitVec.cpopNatRec_succ, BitVec.cpopNatRec_eq, ih, rank_succ, Nat.zero_add]
        cases b.getLsbD n <;> rfl
  rw [BitVec.toNat_cpop, hrec]

/-- `(1 << q) - 1` has the bits below `q`. -/
theorem getLsbD_below {q : Nat} (hq : q < w) (i : Nat) :
    (1#w <<< q - 1#w).getLsbD i = decide (i < q) := by
  have hone : (1#w <<< q).toNat = 2 ^ q := by
    rw [BitVec.toNat_shiftLeft, BitVec.toNat_ofNat,
      Nat.mod_eq_of_lt (Nat.one_lt_two_pow (by omega)), Nat.shiftLeft_eq, Nat.one_mul,
      Nat.mod_eq_of_lt (Nat.pow_lt_pow_right Nat.one_lt_two hq)]
  have hle : 1#w ≤ 1#w <<< q := by
    rw [BitVec.le_def, hone, BitVec.toNat_ofNat, Nat.mod_eq_of_lt (Nat.one_lt_two_pow (by omega))]
    exact Nat.one_le_two_pow
  have hsub : (1#w <<< q - 1#w).toNat = 2 ^ q - 1 := by
    rw [BitVec.toNat_sub_of_le hle, hone, BitVec.toNat_ofNat,
      Nat.mod_eq_of_lt (Nat.one_lt_two_pow (by omega))]
  rw [← BitVec.testBit_toNat, hsub, Nat.testBit_two_pow_sub_one]

/-- The population count below a position, by masking, is its rank. -/
theorem toNat_cpop_below (b : BitVec w) {q : Nat} (hq : q < w) :
    (b &&& (1#w <<< q - 1#w)).cpop.toNat = rank b.getLsbD q := by
  -- the mask ends the count at `q`
  have hcut : ∀ n, rank (b &&& (1#w <<< q - 1#w)).getLsbD n = rank b.getLsbD (min n q) := by
    intro n
    induction n with
    | zero => simp
    | succ n ih =>
        rw [rank_succ, ih, BitVec.getLsbD_and, getLsbD_below hq]
        by_cases hn : n < q
        · rw [show min (n + 1) q = n + 1 by omega, show min n q = n by omega, rank_succ]
          simp [hn]
        · rw [show min (n + 1) q = min n q by omega]
          simp [hn]
  rw [toNat_cpop, hcut, Nat.min_eq_right (Nat.le_of_lt hq)]

theorem getLsbD_setBit (b : BitVec w) {q : Nat} (hq : q < w) :
    (b ||| 1#w <<< q).getLsbD = Function.update b.getLsbD q true := by
  funext i
  rw [BitVec.getLsbD_or, ← BitVec.twoPow_eq, BitVec.getLsbD_twoPow]
  by_cases hi : i = q
  · subst hi
    simp [hq]
  · rw [Function.update_of_ne hi]
    simp [Ne.symm hi]

/-- Setting a set bit changes nothing. -/
theorem or_setBit {b : BitVec w} {q : Nat} (hq : b.getLsbD q = true) : b ||| 1#w <<< q = b := by
  apply BitVec.eq_of_getLsbD_eq
  intro i _
  rw [getLsbD_setBit b (BitVec.lt_of_getLsbD hq), ← hq, Function.update_eq_self]

theorem getLsbD_clearBit (b : BitVec w) {q : Nat} (hq : q < w) :
    (b &&& ~~~(1#w <<< q)).getLsbD = Function.update b.getLsbD q false := by
  funext i
  rw [BitVec.getLsbD_and, BitVec.getLsbD_not, ← BitVec.twoPow_eq, BitVec.getLsbD_twoPow]
  by_cases hi : i = q
  · subst hi
    simp [hq]
  · rw [Function.update_of_ne hi]
    cases hb : b.getLsbD i with
    | false => rfl
    | true => simp [Ne.symm hi, BitVec.lt_of_getLsbD hb]

/-- Shifting down to a cursor and counting trailing zeros finds the first set
    bit from the cursor on. -/
theorem getLsbD_cursor {b : BitVec w} {c : Nat} (h : b >>> c ≠ 0#w) :
    b.getLsbD (c + (b >>> c).ctz.toNat) = true := by
  have hbit := BitVec.getLsbD_true_ctz_of_ne_zero h
  rwa [BitVec.getLsbD_ushiftRight] at hbit

theorem getLsbD_below_cursor {b : BitVec w} {c r : Nat} (hc : c ≤ r)
    (hr : r < c + (b >>> c).ctz.toNat) : b.getLsbD r = false := by
  have hbit := BitVec.getLsbD_false_of_lt_ctz (x := b >>> c) (i := r - c) (by omega)
  rwa [BitVec.getLsbD_ushiftRight, show c + (r - c) = r by omega] at hbit

/-- The first set bit from a cursor on heads the list from the cursor on. -/
theorem assoc_cursor {b : BitVec w} {xs : List α} {c hi : Nat} {x : α}
    (hhi : c + (b >>> c).ctz.toNat < hi)
    (hx : look b.getLsbD xs (c + (b >>> c).ctz.toNat) = some x) :
    assoc b.getLsbD xs c hi
      = (c + (b >>> c).ctz.toNat, x) :: assoc b.getLsbD xs (c + (b >>> c).ctz.toNat + 1) hi :=
  assoc_eq_cons (Nat.le_add_right _ _) hhi (fun _ hr hlt => getLsbD_below_cursor hr hlt) hx

theorem getLsbD_of_shift_zero {b : BitVec w} {c r : Nat} (h : b >>> c = 0#w) (hc : c ≤ r) :
    b.getLsbD r = false := by
  have hbit := congrArg (fun x => x.getLsbD (r - c)) h
  simpa [BitVec.getLsbD_ushiftRight, show c + (r - c) = r by omega] using hbit

/-- The bit before the leading zeros is the binary logarithm. -/
theorem log2_eq_clz {b : BitVec w} (hb : b ≠ 0#w) :
    b.clz.toNat < w ∧ w - 1 - b.clz.toNat = b.toNat.log2 := by
  have hne : b.toNat ≠ 0 := fun h => hb (BitVec.eq_of_toNat_eq (by simpa using h))
  have hlt := BitVec.toNat_lt_two_pow_sub_clz (x := b)
  have hclz : b.clz.toNat < w := by
    by_contra hge
    rw [show w - b.clz.toNat = 0 by omega] at hlt
    omega
  refine ⟨hclz, ((Nat.log2_eq_iff hne).mpr ⟨?_, ?_⟩).symm⟩
  · exact BitVec.two_pow_sub_clz_le_toNat_of_ne_zero (by omega) hb
  · rwa [show w - 1 - b.clz.toNat + 1 = w - b.clz.toNat by omega]

/-- The highest bit, at `log2`, is set. -/
theorem getLsbD_log2 {b : BitVec w} (hb : b ≠ 0#w) : b.getLsbD b.toNat.log2 = true := by
  rw [← BitVec.testBit_toNat]
  exact Nat.testBit_log2 fun h => hb (BitVec.eq_of_toNat_eq (by simpa using h))

theorem getLsbD_above_log2 {b : BitVec w} {i : Nat} (hi : b.toNat.log2 < i) :
    b.getLsbD i = false := by
  rw [← BitVec.testBit_toNat]
  apply Nat.testBit_lt_two_pow
  exact Nat.lt_of_lt_of_le Nat.lt_log2_self (Nat.pow_le_pow_right Nat.two_pos hi)

end BitVec
end RankVec
