/-
  Routemap.Lib.LastSome

  The last hit of a search.  `f i` is what is found at `i`, if anything, and
  `lastSome f n` is the last thing found below `n`, with its index: what a loop
  over `0..n` leaves in a variable that it overwrites at every hit.
-/
namespace LastSome

variable {α : Type}

/-- The last hit below `n`. -/
def lastSome (f : Nat → Option α) : Nat → Option (Nat × α)
  | 0 => none
  | n + 1 =>
    match f n with
    | some a => some (n, a)
    | none => lastSome f n

variable {f : Nat → Option α} {n : Nat}

@[simp] theorem lastSome_zero (f : Nat → Option α) : lastSome f 0 = none := rfl

theorem lastSome_succ_of_some {a : α} (h : f n = some a) : lastSome f (n + 1) = some (n, a) := by
  rw [lastSome, h]

theorem lastSome_succ_of_none (h : f n = none) : lastSome f (n + 1) = lastSome f n := by
  rw [lastSome, h]

/-- The search goes through the indices from `m` on, and then those below `m`. -/
theorem lastSome_add (f : Nat → Option α) (m k : Nat) :
    lastSome f (m + k)
      = ((lastSome (fun i => f (m + i)) k).map fun (i, a) => (m + i, a)).or (lastSome f m) := by
  induction k with
  | zero => rfl
  | succ k ih =>
      -- the last index is a hit of both searches, or of neither
      cases h : f (m + k) with
      | none =>
          rw [← Nat.add_assoc, lastSome_succ_of_none h, ih,
            lastSome_succ_of_none (f := fun i => f (m + i)) h]
      | some a =>
          rw [← Nat.add_assoc, lastSome_succ_of_some h,
            lastSome_succ_of_some (f := fun i => f (m + i)) h]
          rfl

/-- What is found: the last hit after index 0, or else the one at 0. -/
theorem map_snd_lastSome (f : Nat → Option α) (n : Nat) :
    (lastSome f (n + 1)).map Prod.snd
      = ((lastSome (fun i => f (i + 1)) n).map Prod.snd).or (f 0) := by
  rw [Nat.add_comm, lastSome_add]
  simp only [Nat.add_comm 1]
  cases lastSome (fun i => f (i + 1)) n with
  | some found => rfl
  | none =>
      rw [Option.map_none, Option.map_none, Option.none_or, Option.none_or, lastSome]
      cases f 0 <;> rfl

/-- Indices without a hit at the end can be left out. -/
theorem lastSome_of_none {m : Nat} (hmn : m ≤ n) (h : ∀ i, m ≤ i → i < n → f i = none) :
    lastSome f n = lastSome f m := by
  induction n with
  | zero => rw [Nat.le_zero.mp hmn]
  | succ n ih =>
      rcases Nat.lt_or_ge m (n + 1) with hlt | hge
      · rw [lastSome_succ_of_none (h n (by omega) (by omega))]
        exact ih (by omega) (fun i hi hin => h i hi (by omega))
      · rw [Nat.le_antisymm hmn hge]

theorem lastSome_congr {g : Nat → Option α} (h : ∀ i < n, f i = g i) :
    lastSome f n = lastSome g n := by
  induction n with
  | zero => rfl
  | succ n ih => rw [lastSome, lastSome, h n (by omega), ih (fun i hi => h i (by omega))]

theorem lastSome_eq_none : lastSome f n = none ↔ ∀ i < n, f i = none := by
  induction n with
  | zero => simp
  | succ n ih =>
      cases h : f n with
      | none =>
          rw [lastSome_succ_of_none h, ih]
          refine ⟨?_, ?_⟩
          · intro hall i hi
            rcases Nat.lt_succ_iff_lt_or_eq.mp hi with hlt | rfl
            · exact hall i hlt
            · exact h
          · exact fun hall i hi => hall i (by omega)
      | some a =>
          rw [lastSome_succ_of_some h]
          refine ⟨?_, ?_⟩
          · intro habs
            cases habs
          · intro hall
            rw [hall n (by omega)] at h
            cases h

/-- What is found is a hit after which nothing is hit. -/
theorem lastSome_eq_some {i : Nat} {a : α} :
    lastSome f n = some (i, a) ↔ i < n ∧ f i = some a ∧ ∀ j, i < j → j < n → f j = none := by
  refine ⟨?_, ?_⟩
  · intro h
    induction n with
    | zero => cases h
    | succ n ih =>
        cases hn : f n with
        | none =>
            -- `n` is one more index without a hit
            rw [lastSome_succ_of_none hn] at h
            obtain ⟨hi, ha, hall⟩ := ih h
            refine ⟨by omega, ha, ?_⟩
            intro j hij hjn
            rcases Nat.lt_succ_iff_lt_or_eq.mp hjn with hlt | rfl
            · exact hall j hij hlt
            · exact hn
        | some b =>
            rw [lastSome_succ_of_some hn] at h
            cases h
            exact ⟨by omega, hn, fun j hij hjn => by omega⟩
  · rintro ⟨hi, ha, hall⟩
    rw [lastSome_of_none (m := i + 1) hi (fun j hj hjn => hall j hj hjn), lastSome_succ_of_some ha]

/-! ## Sorted lists -/

/-- The last item of a sorted list with a property is the greatest one that has it. -/
theorem getLast?_filter_eq_some {r : α → α → Prop} (hasymm : ∀ a b, r a b → ¬ r b a)
    {l : List α} (hsorted : l.Pairwise r) {p : α → Bool} {a : α} :
    (l.filter p).getLast? = some a ↔
      (a ∈ l ∧ p a = true) ∧ ∀ b ∈ l, p b = true → b = a ∨ r b a := by
  have hlast : ∀ {a}, (l.filter p).getLast? = some a →
      (a ∈ l ∧ p a = true) ∧ ∀ b ∈ l, p b = true → b = a ∨ r b a := by
    intro a ha
    obtain ⟨init, hinit⟩ := List.getLast?_eq_some_iff.mp ha
    have hpair := hsorted.filter p
    rw [hinit, List.pairwise_append] at hpair
    refine ⟨List.mem_filter.mp (by simp [hinit]), ?_⟩
    intro b hb hpb
    have hmem : b ∈ l.filter p := List.mem_filter.mpr ⟨hb, hpb⟩
    rw [hinit, List.mem_append, List.mem_singleton] at hmem
    rcases hmem with hmem | heq
    · exact Or.inr (hpair.2.2 b hmem a (List.mem_singleton_self a))
    · exact Or.inl heq
  refine ⟨hlast, ?_⟩
  rintro ⟨⟨ha, hpa⟩, hmax⟩
  -- the last item there is can only be this one
  cases hc : (l.filter p).getLast? with
  | none =>
      rw [List.getLast?_eq_none_iff, List.filter_eq_nil_iff] at hc
      exact absurd hpa (hc a ha)
  | some c =>
      obtain ⟨⟨hcmem, hpc⟩, hcmax⟩ := hlast hc
      rcases hmax c hcmem hpc with rfl | hca
      · rfl
      · rcases hcmax a ha hpa with rfl | hac
        · rfl
        · exact absurd hac (hasymm c a hca)

end LastSome
