/-
  Routemap.Lib.Prefixes

  The nodes of a trie, as a set of paths.  A trie of a set of keys has a node at
  each prefix of a key, and one at the empty path even where there is no key.

  * `nodes K` are the paths with a node, `missing K k` is how many of them key `k`
    would add.
  * A trie may take several letters at a time.  `spell` writes a path of such
    digits in letters; the nodes of the one trie are then those nodes of the
    other that are at a whole number of digits.
-/
import Mathlib.Data.Set.Card

namespace Prefixes

variable {α β γ : Type} {K : Set (List α)} {k p q : List α}

/-! ## The prefixes of one key -/

theorem setOf_prefix_cons (b : α) (k : List α) :
    {p | p <+: b :: k} = insert [] ((b :: ·) '' {p | p <+: k}) := by
  ext p
  simp only [Set.mem_ofPred_eq, Set.mem_insert_iff, Set.mem_image, List.prefix_cons_iff]
  refine or_congr_right ⟨?_, ?_⟩
  · rintro ⟨p', rfl, hp'⟩
    exact ⟨p', hp', rfl⟩
  · rintro ⟨p', hp', rfl⟩
    exact ⟨p', rfl, hp'⟩

theorem finite_prefixes (k : List α) : {p | p <+: k}.Finite := by
  induction k with
  | nil => exact (Set.finite_singleton []).subset fun p hp => List.prefix_nil.mp hp
  | cons b k ih =>
      rw [setOf_prefix_cons]
      exact (ih.image _).insert _

theorem ncard_prefixes (k : List α) : {p | p <+: k}.ncard = k.length + 1 := by
  induction k with
  | nil =>
      have hone : {p : List α | p <+: []} = {[]} := by
        ext p
        exact List.prefix_nil
      rw [hone, Set.ncard_singleton, List.length_nil]
  | cons b k ih =>
      have hnil : [] ∉ (b :: ·) '' {p | p <+: k} := by
        rintro ⟨p, -, hp⟩
        cases hp
      rw [setOf_prefix_cons, Set.ncard_insert_of_notMem hnil ((finite_prefixes k).image _),
        Set.ncard_image_of_injective _ (List.cons_injective), ih, List.length_cons]

/-! ## The nodes of a trie -/

/-- The paths at which a trie of the keys `K` has a node. -/
def nodes (K : Set (List α)) : Set (List α) := {p | p = [] ∨ ∃ k ∈ K, p <+: k}

/-- How many nodes key `k` adds to a trie of the keys `K`. -/
noncomputable def missing (K : Set (List α)) (k : List α) : Nat :=
  {p | p <+: k ∧ p ∉ nodes K}.ncard

theorem nil_mem_nodes (K : Set (List α)) : [] ∈ nodes K := Or.inl rfl

theorem mem_nodes_of_ne (hp : p ≠ []) : p ∈ nodes K ↔ ∃ k ∈ K, p <+: k :=
  or_iff_right hp

theorem mem_nodes_of_prefix (hk : k ∈ K) (hp : p <+: k) : p ∈ nodes K := Or.inr ⟨k, hk, hp⟩

theorem nodes_empty : nodes (∅ : Set (List α)) = {[]} := by
  ext p
  refine ⟨?_, Or.inl⟩
  rintro (hnil | ⟨k, hk, -⟩)
  · exact hnil
  · exact hk.elim

theorem nodes_mono {K' : Set (List α)} (h : K ⊆ K') : nodes K ⊆ nodes K' := by
  rintro p (hnil | ⟨k, hk, hp⟩)
  · exact Or.inl hnil
  · exact Or.inr ⟨k, h hk, hp⟩

/-- A key adds the nodes on its path that are not there. -/
theorem nodes_insert (K : Set (List α)) (k : List α) :
    nodes (insert k K) = nodes K ∪ {p | p <+: k ∧ p ∉ nodes K} := by
  ext p
  refine ⟨?_, ?_⟩
  · intro hp
    by_cases hold : p ∈ nodes K
    · exact Or.inl hold
    · rcases hp with hnil | ⟨k', hk', hpre⟩
      · exact Or.inl (Or.inl hnil)
      · rcases hk' with rfl | hk'
        · exact Or.inr ⟨hpre, hold⟩
        · exact Or.inl (Or.inr ⟨k', hk', hpre⟩)
  · rintro (hold | ⟨hpre, -⟩)
    · exact nodes_mono (Set.subset_insert k K) hold
    · exact Or.inr ⟨k, Set.mem_insert k K, hpre⟩

/-! ## Counting -/

theorem finite_missing (K : Set (List α)) (k : List α) : {p | p <+: k ∧ p ∉ nodes K}.Finite :=
  (finite_prefixes k).subset fun _ hp => hp.1

theorem finite_nodes (hK : K.Finite) : (nodes K).Finite := by
  induction K, hK using Set.Finite.induction_on with
  | empty =>
      rw [nodes_empty]
      exact Set.finite_singleton []
  | insert hk hK ih =>
      rw [nodes_insert]
      exact ih.union (finite_missing _ _)

/-- **A key adds what is missing.** -/
theorem ncard_nodes_insert (hK : K.Finite) (k : List α) :
    (nodes (insert k K)).ncard = (nodes K).ncard + missing K k := by
  rw [nodes_insert, missing]
  refine Set.ncard_union_eq ?_ (finite_nodes hK) (finite_missing K k)
  rw [Set.disjoint_left]
  exact fun p hp hmiss => hmiss.2 hp

/-- The root is never missing. -/
theorem missing_le (K : Set (List α)) (k : List α) : missing K k ≤ k.length := by
  have hsub : insert [] {p | p <+: k ∧ p ∉ nodes K} ⊆ {p | p <+: k} := by
    rintro p (rfl | hp)
    · exact List.nil_prefix
    · exact hp.1
  have hle := Set.ncard_le_ncard hsub (finite_prefixes k)
  have hnil : [] ∉ {p | p <+: k ∧ p ∉ nodes K} := fun h => h.2 (nil_mem_nodes K)
  rw [Set.ncard_insert_of_notMem hnil (finite_missing K k), ncard_prefixes] at hle
  exact Nat.le_of_succ_le_succ hle

/-- A trie of keys of length `d` at most has at most `d` nodes for each, and the root. -/
theorem ncard_nodes_le (hK : K.Finite) {d : Nat} (hd : ∀ k ∈ K, k.length ≤ d) :
    (nodes K).ncard ≤ 1 + K.ncard * d := by
  induction K, hK using Set.Finite.induction_on with
  | empty =>
      rw [nodes_empty, Set.ncard_singleton]
      exact Nat.le_add_right _ _
  | @insert k K hk hK ih =>
      have hold := ih fun k' hk' => hd k' (Set.mem_insert_of_mem k hk')
      have hnew := (missing_le K k).trans (hd k (Set.mem_insert k K))
      rw [ncard_nodes_insert hK, Set.ncard_insert_of_notMem hk hK, Nat.succ_mul]
      omega

/-! ## Several letters at a time -/

/-- A path of digits, written in letters. -/
def spell (letters : β → List α) (path : List β) : List α := path.flatMap letters

section Spell

variable {letters : β → List α} {d : Nat} {S : Set β}

theorem spell_cons (b : β) (path : List β) :
    spell letters (b :: path) = letters b ++ spell letters path := List.flatMap_cons

/-- Digits of `d` letters, told apart by them on `S`. -/
structure Code (letters : β → List α) (d : Nat) (S : Set β) : Prop where
  pos : 0 < d
  length_eq : ∀ b, (letters b).length = d
  injOn : S.InjOn letters

variable (code : Code letters d S)
include code

theorem Code.length_spell (path : List β) : (spell letters path).length = d * path.length := by
  induction path with
  | nil => rfl
  | cons b path ih =>
      rw [spell_cons, List.length_append, code.length_eq, ih, List.length_cons, Nat.mul_succ,
        Nat.add_comm]

theorem Code.spell_eq_nil {path : List β} : spell letters path = [] ↔ path = [] := by
  rw [← List.length_eq_zero_iff, code.length_spell, Nat.mul_eq_zero, List.length_eq_zero_iff]
  exact or_iff_right code.pos.ne'

/-- A path is a prefix exactly when it is one in letters, with less than a digit
    left over behind the other path. -/
theorem Code.spell_prefix_iff {path path' : List β} {rest : List α} (hpath : ∀ b ∈ path, b ∈ S)
    (hpath' : ∀ b ∈ path', b ∈ S) (hrest : rest.length < d) :
    spell letters path <+: spell letters path' ++ rest ↔ path <+: path' := by
  induction path generalizing path' with
  | nil => simp [spell]
  | cons b path ih =>
      cases path' with
      | nil =>
          refine ⟨?_, fun h => absurd (List.prefix_nil.mp h) (by simp)⟩
          -- a whole digit does not fit in what is left over
          intro h
          have hle := h.length_le
          rw [spell_cons, List.length_append, code.length_eq] at hle
          simp only [spell, List.flatMap_nil, List.nil_append] at hle
          omega
      | cons b' path' =>
          have htail : ∀ c ∈ path', c ∈ S := fun c hc => hpath' c (List.mem_cons_of_mem _ hc)
          have hrec := ih (fun c hc => hpath c (List.mem_cons_of_mem _ hc)) htail
          rw [spell_cons, spell_cons, List.append_assoc, List.cons_prefix_cons, ← hrec]
          refine ⟨?_, ?_⟩
          · rintro ⟨tail, htail⟩
            rw [List.append_assoc] at htail
            obtain ⟨hhead, htail⟩ := List.append_inj htail (by rw [code.length_eq, code.length_eq])
            exact ⟨code.injOn (hpath b (by simp)) (hpath' b' (by simp)) hhead, tail, htail⟩
          · rintro ⟨rfl, h⟩
            exact (List.prefix_append_right_inj _).mpr h

/-- **The nodes of the trie of digits** are those of the trie of letters that are at a
    whole number of digits. -/
theorem Code.mem_nodes_iff {M : Set γ} {path : γ → List β} {word rest : γ → List α}
    (hword : ∀ n ∈ M, word n = spell letters (path n) ++ rest n)
    (hrest : ∀ n ∈ M, (rest n).length < d) (hpath : ∀ n ∈ M, ∀ b ∈ path n, b ∈ S)
    {p : List β} (hp : ∀ b ∈ p, b ∈ S) :
    p ∈ nodes (path '' M) ↔ spell letters p ∈ nodes (word '' M) := by
  refine or_congr code.spell_eq_nil.symm ?_
  simp only [Set.exists_mem_image]
  refine exists_congr fun n => and_congr_right fun hn => ?_
  rw [hword n hn, code.spell_prefix_iff hp (hpath n hn) (hrest n hn)]

theorem Code.spell_injOn : {p : List β | ∀ b ∈ p, b ∈ S}.InjOn (spell letters) := by
  intro p hp p' hp' heq
  have hrest : ([] : List α).length < d := code.pos
  have hle := (code.spell_prefix_iff hp hp' hrest).mp (by rw [heq, List.append_nil])
  have hge := (code.spell_prefix_iff hp' hp hrest).mp (by rw [← heq, List.append_nil])
  exact hle.eq_of_length (Nat.le_antisymm hle.length_le hge.length_le)

end Spell
end Prefixes
