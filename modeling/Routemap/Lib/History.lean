/-
  Routemap.Lib.History

  A map with the history of the writes that made it.  A write puts a value under
  a key, deletes a key, or resets the whole map.

  * `Live ws k v`: the last put of `k` in the history `ws` wrote `v`, and no
    delete of `k` and no reset came after it.
  * `replay ws`: the map the writes make one after the other, from the empty one.

  The two agree (`live_iff`): what a map holds is what its history says.
-/
import Mathlib.Logic.Function.Basic
import Mathlib.Data.Set.Card

namespace History

/-- One write to a map from `K` to `V`. -/
inductive Write (K V : Type) where
  | put (k : K) (v : V)
  | del (k : K)
  | reset

variable {K V : Type}

/-- `w` decides what the map holds under `k`. -/
def Write.Touches : Write K V → K → Prop
  | .put k _, k' => k = k'
  | .del k, k' => k = k'
  | .reset, _ => True

/-- `v` was put under `k`, and `k` was not touched since. -/
def Live (ws : List (Write K V)) (k : K) (v : V) : Prop :=
  ∃ before after, ws = before ++ .put k v :: after ∧ ∀ w ∈ after, ¬ w.Touches k

theorem not_live_nil (k : K) (v : V) : ¬ Live ([] : List (Write K V)) k v := by
  rintro ⟨before, after, h, -⟩
  simp at h

/-- After one more write, what is live was put by it, or was live and is not touched. -/
theorem live_concat {ws : List (Write K V)} {w : Write K V} {k : K} {v : V} :
    Live (ws ++ [w]) k v ↔ w = .put k v ∨ Live ws k v ∧ ¬ w.Touches k := by
  refine ⟨?_, ?_⟩
  · rintro ⟨before, after, h, hafter⟩
    -- `w` is the last write after the put, or the put itself
    rcases List.eq_nil_or_concat after with rfl | ⟨rest, last, rfl⟩
    · obtain ⟨-, hlast⟩ := List.append_inj' h rfl
      exact Or.inl (List.cons.inj hlast).1
    · rw [List.concat_eq_append, ← List.cons_append, ← List.append_assoc] at h
      obtain ⟨hinit, hlast⟩ := List.append_inj' h rfl
      rw [(List.cons.inj hlast).1]
      refine Or.inr ⟨⟨before, rest, hinit, ?_⟩, hafter last (by simp)⟩
      exact fun w hw => hafter w (by simp [hw])
  · rintro (rfl | ⟨⟨before, after, rfl, hafter⟩, hw⟩)
    · exact ⟨ws, [], rfl, by simp⟩
    · refine ⟨before, after ++ [w], by simp, ?_⟩
      intro w' hw'
      rcases List.mem_append.mp hw' with h | h
      · exact hafter w' h
      · rw [List.mem_singleton.mp h]
        exact hw

/-- Of a list of puts, the last one of each key is live. -/
theorem live_puts {ι : Type} (key : ι → K) (val : ι → V) {es : List ι} {k : K} {v : V} :
    Live (es.map fun e => .put (key e) (val e)) k v ↔
      ∃ before after e, es = before ++ e :: after ∧ key e = k ∧ val e = v
        ∧ ∀ e' ∈ after, key e' ≠ k := by
  refine ⟨?_, ?_⟩
  · rintro ⟨before, after, h, hafter⟩
    obtain ⟨es₁, rest, rfl, rfl, hrest⟩ := List.map_eq_append_iff.mp h
    obtain ⟨e, es₂, rfl, hput, rfl⟩ := List.map_eq_cons_iff.mp hrest
    cases hput
    exact ⟨es₁, es₂, e, rfl, rfl, rfl, fun e' he' => hafter _ (List.mem_map_of_mem he')⟩
  · rintro ⟨before, after, e, rfl, rfl, rfl, hafter⟩
    refine ⟨before.map fun e => .put (key e) (val e), after.map fun e => .put (key e) (val e),
      by simp, ?_⟩
    intro w hw
    obtain ⟨e', he', rfl⟩ := List.mem_map.mp hw
    exact hafter e' he'

variable [DecidableEq K]

/-- The map after one write. -/
def apply (m : K → Option V) : Write K V → K → Option V
  | .put k v => Function.update m k (some v)
  | .del k => Function.update m k none
  | .reset => fun _ => none

/-- The map after all the writes. -/
def replay (ws : List (Write K V)) : K → Option V := ws.foldl apply fun _ => none

/-- After a write a map holds what the write put, or what it held and is not touched. -/
theorem apply_eq_some {m : K → Option V} {w : Write K V} {k : K} {v : V} :
    apply m w k = some v ↔ w = .put k v ∨ m k = some v ∧ ¬ w.Touches k := by
  cases w with
  | put k' v' =>
      by_cases hk : k' = k
      · subst hk
        simp [apply, Write.Touches]
      · simp [apply, Write.Touches, hk, Ne.symm hk]
  | del k' =>
      by_cases hk : k' = k
      · subst hk
        simp [apply, Write.Touches]
      · simp [apply, Write.Touches, hk, Ne.symm hk]
  | reset => simp [apply, Write.Touches]

/-- **The map holds what is live in its history.** -/
theorem live_iff (ws : List (Write K V)) (k : K) (v : V) :
    Live ws k v ↔ replay ws k = some v := by
  -- the last write decides, as it does for the map
  induction ws using List.reverseRecOn with
  | nil => simp [not_live_nil, replay]
  | append_singleton ws w ih =>
      rw [replay, List.foldl_append, List.foldl_cons, List.foldl_nil, ← replay, live_concat,
        apply_eq_some, ih]

/-- Writes are replayed in portions. -/
theorem foldl_flatMap_apply {ι : Type} (writes : ι → List (Write K V)) (m : K → Option V)
    (calls : List ι) :
    calls.foldl (fun m call => (writes call).foldl apply m) m
      = (calls.flatMap writes).foldl apply m := by
  induction calls generalizing m with
  | nil => rfl
  | cons call calls ih => rw [List.foldl_cons, ih, List.flatMap_cons, List.foldl_append]

/-- Puts go on top of what the map holds. -/
theorem foldl_put {ι : Type} (key : ι → K) (val : ι → V) (es : List ι) (m : K → Option V)
    (k : K) :
    (es.map fun e => .put (key e) (val e)).foldl apply m k
      = (replay (es.map fun e => .put (key e) (val e)) k).or (m k) := by
  -- the last put decides
  induction es using List.reverseRecOn with
  | nil => exact Option.none_or.symm
  | append_singleton es e ih =>
      rw [replay, List.map_append, List.foldl_append, List.foldl_append]
      by_cases hk : k = key e
      · simp [apply, hk]
      · simpa [apply, replay, hk] using ih

/-- The keys under which a map holds a value. -/
def support (m : K → Option V) : Set K := {k | (m k).isSome}

section Card

variable [Finite K] {m : K → Option V} {k : K}

/-- A put adds a key unless the key was there. -/
theorem ncard_support_put (v : V) :
    (support (Function.update m k (some v))).ncard
      = (support m).ncard + if (m k).isNone then 1 else 0 := by
  have hset : support (Function.update m k (some v)) = insert k (support m) := by
    ext k'
    by_cases h : k' = k <;> simp [support, h]
  rw [hset]
  cases hk : m k with
  | none =>
      rw [Set.ncard_insert_of_notMem (by simp [support, hk])]
      rfl
  | some w =>
      rw [Set.insert_eq_of_mem (by simp [support, hk])]
      rfl

/-- A delete takes the key away if it was there. -/
theorem ncard_support_del :
    (support m).ncard
      = (support (Function.update m k none)).ncard + if (m k).isSome then 1 else 0 := by
  have hset : support (Function.update m k none) = support m \ {k} := by
    ext k'
    by_cases h : k' = k <;> simp [support, h]
  rw [hset]
  cases hk : m k with
  | none =>
      rw [Set.sdiff_singleton_eq_self (by simp [support, hk])]
      rfl
  | some w => exact (Set.ncard_sdiff_singleton_add_one (by simp [support, hk])).symm

end Card

/-- The key of a put. -/
def Write.key? : Write K V → Option K
  | .put k _ => some k
  | _ => none

/-- A map has at most as many keys as its history has puts. -/
theorem ncard_support_replay_le (ws : List (Write K V)) :
    (support (replay ws)).ncard ≤ (ws.filterMap Write.key?).length := by
  have hsub : support (replay ws) ⊆ ((ws.filterMap Write.key?).toFinset : Set K) := by
    intro k hk
    obtain ⟨v, hv⟩ := Option.isSome_iff_exists.mp hk
    obtain ⟨before, after, rfl, -⟩ := (live_iff ws k v).mpr hv
    rw [Finset.mem_coe, List.mem_toFinset, List.mem_filterMap]
    exact ⟨.put k v, by simp, rfl⟩
  have hle := Set.ncard_le_ncard hsub (Finset.finite_toSet _)
  rw [Set.ncard_coe_finset] at hle
  exact hle.trans (List.toFinset_card_le _)

end History
