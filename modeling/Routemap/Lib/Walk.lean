/-
  Routemap.Lib.Walk

  Trees stored in a pool.  Nodes are numbers, `e i b` is the node that the edge
  labelled `b` leads to from node `i`, and `val i` is what node `i` holds.  A
  pool may hold nodes that nothing leads to.

  * `walk e i path` follows a path, `find e val path` reads the value at its end,
    from node 0.
  * `Forest e`: edges go from smaller to larger nodes, and at most one edge leads
    to each node; then different paths lead to different nodes.
  * `Tight e val depth c`: paths are short, and only the root and `c` may be
    reached and be empty leaves.
  * Linking an empty leaf, unlinking one and writing a value, each with what it
    does to `find`, to a forest and to a tight one.
-/
import Mathlib.Data.List.Induction
import Mathlib.Logic.Function.Basic

namespace Walk

variable {β V : Type}

/-- The node at the end of a path from node `i`. -/
def walk (e : Nat → β → Option Nat) : Nat → List β → Option Nat
  | i, [] => some i
  | i, b :: path => (e i b).bind fun j => walk e j path

/-- The value at the end of a path from node 0. -/
def find (e : Nat → β → Option Nat) (val : Nat → Option V) (path : List β) : Option V :=
  (walk e 0 path).bind val

/-- Edges lead to larger nodes, and no two edges lead to the same node. -/
structure Forest (e : Nat → β → Option Nat) : Prop where
  lt : ∀ i b j, e i b = some j → i < j
  unique : ∀ i b i' b' j, e i b = some j → e i' b' = some j → i = i' ∧ b = b'

variable {e e' : Nat → β → Option Nat} {val : Nat → Option V}

theorem walk_nil (i : Nat) : walk e i [] = some i := rfl

theorem walk_append (i : Nat) (path rest : List β) :
    walk e i (path ++ rest) = (walk e i path).bind fun j => walk e j rest := by
  induction path generalizing i with
  | nil => rfl
  | cons b path ih =>
      rw [List.cons_append, walk, walk]
      cases e i b with
      | none => rfl
      | some j => exact ih j

theorem walk_concat (i : Nat) (path : List β) (b : β) :
    walk e i (path ++ [b]) = (walk e i path).bind fun j => e j b := by
  rw [walk_append]
  congr 1
  funext j
  rw [walk]
  cases e j b <;> rfl

/-- A path goes on by an edge at its end. -/
theorem walk_snoc {i j k : Nat} {path : List β} {b : β} (hpath : walk e i path = some j)
    (hedge : e j b = some k) : walk e i (path ++ [b]) = some k := by
  rw [walk_concat, hpath, Option.bind_some, hedge]

/-- A path is still there when there are more edges. -/
theorem walk_mono (hsub : ∀ i b j, e i b = some j → e' i b = some j) {i k : Nat} {path : List β}
    (h : walk e i path = some k) : walk e' i path = some k := by
  induction path generalizing i with
  | nil => exact h
  | cons b path ih =>
      rw [walk] at h ⊢
      obtain ⟨j, hj, h⟩ := Option.bind_eq_some_iff.mp h
      rw [hsub i b j hj, Option.bind_some, ih h]

theorem Forest.mono (hf : Forest e) (hsub : ∀ i b j, e' i b = some j → e i b = some j) :
    Forest e' where
  lt i b j h := hf.lt i b j (hsub i b j h)
  unique i b i' b' j h h' := hf.unique i b i' b' j (hsub i b j h) (hsub i' b' j h')

/-- **Different paths lead to different nodes.** -/
theorem Forest.walk_injective (hf : Forest e) {path path' : List β} {k : Nat}
    (h : walk e 0 path = some k) (h' : walk e 0 path' = some k) : path = path' := by
  -- backwards from the end: the last edge is the only one that leads to `k`
  induction path using List.reverseRecOn generalizing path' k with
  | nil =>
      -- no edge leads to node 0, the smallest
      obtain rfl : 0 = k := Option.some.inj h
      rcases List.eq_nil_or_concat path' with rfl | ⟨init, b, rfl⟩
      · rfl
      · rw [List.concat_eq_append, walk_concat] at h'
        obtain ⟨j, -, hedge⟩ := Option.bind_eq_some_iff.mp h'
        exact absurd (hf.lt _ _ _ hedge) (Nat.not_lt_zero _)
  | append_singleton path b ih =>
      rw [walk_concat] at h
      obtain ⟨i, hi, hedge⟩ := Option.bind_eq_some_iff.mp h
      rcases List.eq_nil_or_concat path' with rfl | ⟨init, b', rfl⟩
      · obtain rfl : 0 = k := Option.some.inj h'
        exact absurd (hf.lt _ _ _ hedge) (Nat.not_lt_zero _)
      · rw [List.concat_eq_append, walk_concat] at h'
        obtain ⟨i', hi', hedge'⟩ := Option.bind_eq_some_iff.mp h'
        obtain ⟨rfl, rfl⟩ := hf.unique _ _ _ _ _ hedge hedge'
        rw [List.concat_eq_append, ih hi hi']

/-- Some path leads from node `i` to node `j`. -/
def Reaches (e : Nat → β → Option Nat) (i j : Nat) : Prop := ∃ path, walk e i path = some j

theorem Reaches.refl (i : Nat) : Reaches e i i := ⟨[], walk_nil i⟩

theorem ne_of_not_reaches {i j : Nat} (h : ¬ Reaches e i j) : i ≠ j := by
  rintro rfl
  exact h (.refl i)

theorem Reaches.head {i j k : Nat} {b : β} (h : e i b = some j) (hj : Reaches e j k) :
    Reaches e i k := by
  obtain ⟨path, hpath⟩ := hj
  exact ⟨b :: path, by rw [walk, h, Option.bind_some, hpath]⟩

theorem Reaches.mono (hsub : ∀ i b j, e i b = some j → e' i b = some j) {i j : Nat}
    (h : Reaches e i j) : Reaches e' i j := by
  obtain ⟨path, hpath⟩ := h
  exact ⟨path, walk_mono hsub hpath⟩

/-- A node without edges reaches itself only. -/
theorem Reaches.eq_of_no_edge {i j : Nat} (hno : ∀ b, e i b = none) (h : Reaches e i j) :
    j = i := by
  obtain ⟨path, hpath⟩ := h
  cases path with
  | nil => exact (Option.some.inj hpath).symm
  | cons b path =>
      rw [walk, hno] at hpath
      cases hpath

/-- `c` is an empty leaf: it holds nothing and has no edge. -/
structure Leaf (e : Nat → β → Option Nat) (val : Nat → Option V) (c : Nat) : Prop where
  edges : ∀ b, e c b = none
  value : val c = none

theorem not_leaf_of_edge {i j : Nat} {b : β} (h : e i b = some j) : ¬ Leaf e val i := by
  intro hleaf
  rw [hleaf.edges] at h
  cases h

/-- No path is longer than `depth`, and no node reached is an empty leaf, the root
    and node `c` apart. -/
structure Tight (e : Nat → β → Option Nat) (val : Nat → Option V) (depth c : Nat) : Prop where
  length_le : ∀ path i, walk e 0 path = some i → path.length ≤ depth
  leaf : ∀ i, Reaches e 0 i → Leaf e val i → i = 0 ∨ i = c

section Tight

variable {depth c : Nat}

theorem Tight.weaken (h : Tight e val depth 0) (c : Nat) : Tight e val depth c :=
  ⟨h.length_le, fun i hi hleaf => Or.inl ((h.leaf i hi hleaf).elim id id)⟩

theorem Tight.settle (h : Tight e val depth c) (hc : ¬ Leaf e val c) : Tight e val depth 0 := by
  refine ⟨h.length_le, ?_⟩
  intro i hi hleaf
  rcases h.leaf i hi hleaf with rfl | rfl
  · exact Or.inl rfl
  · exact absurd hleaf hc

theorem Tight.update (h : Tight e val depth c) (w : Option V) :
    Tight e (Function.update val c w) depth c := by
  refine ⟨h.length_le, ?_⟩
  intro i hi hleaf
  by_cases hic : i = c
  · exact Or.inr hic
  · refine h.leaf i hi ⟨hleaf.edges, ?_⟩
    rw [← hleaf.value, Function.update_of_ne hic]

variable (hf : Forest e)
include hf

/-- Every node but the root has a value in it or further down. -/
theorem Tight.exists_find (h : Tight e val depth 0) {path : List β} {i : Nat} (hi0 : i ≠ 0)
    (hpath : walk e 0 path = some i) : ∃ rest v, find e val (path ++ rest) = some v := by
  -- the induction is on what is left of the depth
  induction hleft : depth - path.length generalizing path i with
  | zero =>
      have hno : ∀ b, e i b = none := by
        intro b
        by_contra hne
        obtain ⟨j, hj⟩ := Option.ne_none_iff_exists'.mp hne
        have hle := h.length_le _ _ (walk_snoc hpath hj)
        rw [List.length_append, List.length_singleton] at hle
        omega
      cases hv : val i with
      | none => exact absurd ((h.leaf i ⟨path, hpath⟩ ⟨hno, hv⟩).elim id id) hi0
      | some v => exact ⟨[], v, by rw [List.append_nil, find, hpath, Option.bind_some, hv]⟩
  | succ left ih =>
      cases hv : val i with
      | some v => exact ⟨[], v, by rw [List.append_nil, find, hpath, Option.bind_some, hv]⟩
      | none =>
          -- a node without a value has an edge
          have hedge : ¬ ∀ b, e i b = none :=
            fun hno => hi0 ((h.leaf i ⟨path, hpath⟩ ⟨hno, hv⟩).elim id id)
          obtain ⟨b, hb⟩ := not_forall.mp hedge
          obtain ⟨j, hj⟩ := Option.ne_none_iff_exists'.mp hb
          have hj0 : j ≠ 0 := Nat.ne_of_gt (Nat.lt_of_le_of_lt (Nat.zero_le i) (hf.lt i b j hj))
          obtain ⟨rest, v, hv'⟩ := ih hj0 (walk_snoc hpath hj) (by
            rw [List.length_append, List.length_singleton]
            omega)
          exact ⟨b :: rest, v, by rw [List.append_cons, hv']⟩

/-- **The nodes of a tight forest** are those on the way to a value, and the root. -/
theorem Tight.walk_isSome_iff (h : Tight e val depth 0) (path : List β) :
    (walk e 0 path).isSome = true
      ↔ path = [] ∨ ∃ rest v, find e val (path ++ rest) = some v := by
  refine ⟨?_, ?_⟩
  · intro hsome
    obtain ⟨i, hi⟩ := Option.isSome_iff_exists.mp hsome
    by_cases hi0 : i = 0
    · subst hi0
      exact Or.inl (hf.walk_injective hi (walk_nil 0))
    · exact Or.inr (h.exists_find hf hi0 hi)
  · rintro (rfl | ⟨rest, v, hv⟩)
    · rfl
    · rw [find, walk_append] at hv
      cases hw : walk e 0 path with
      | none =>
          rw [hw] at hv
          cases hv
      | some i => rfl

end Tight

/-! ## Updates -/

/-- Writing a value changes what is found at the one path to its node. -/
theorem Forest.find_update (hf : Forest e) (val : Nat → Option V) {path : List β} {k : Nat}
    (hk : walk e 0 path = some k) (w : Option V) (path' : List β) [Decidable (path' = path)] :
    find e (Function.update val k w) path' = if path' = path then w else find e val path' := by
  rw [find, find]
  split
  case isTrue heq => rw [heq, hk, Option.bind_some, Function.update_self]
  case isFalse hne =>
    cases hw : walk e 0 path' with
    | none => rfl
    | some j =>
        -- another path ends at another node, which was not written
        have hjk : j ≠ k := by
          rintro rfl
          exact hne (hf.walk_injective hw hk)
        rw [Option.bind_some, Option.bind_some, Function.update_of_ne hjk]

variable [DecidableEq β]

/-- The pool with the edge labelled `b` at node `i` set to `target`. -/
def setEdge (e : Nat → β → Option Nat) (i : Nat) (b : β) (target : Option Nat) :
    Nat → β → Option Nat :=
  Function.update e i (Function.update (e i) b target)

theorem setEdge_self (e : Nat → β → Option Nat) (i : Nat) (b : β) (target : Option Nat) :
    setEdge e i b target i b = target := by
  rw [setEdge, Function.update_self, Function.update_self]

theorem setEdge_of_ne {i : Nat} {b : β} {i' : Nat} {b' : β} (target : Option Nat)
    (h : ¬ (i' = i ∧ b' = b)) : setEdge e i b target i' b' = e i' b' := by
  rw [setEdge]
  by_cases hi : i' = i
  · subst hi
    rw [Function.update_self, Function.update_of_ne fun hb => h ⟨rfl, hb⟩]
  · rw [Function.update_of_ne hi]

section Link

variable {i c : Nat} {b : β}

/-- Linking an empty leaf that nothing leads to keeps every edge. -/
theorem link_sub (hfree : e i b = none) (i' : Nat) (b' : β) (j : Nat) (h : e i' b' = some j) :
    setEdge e i b (some c) i' b' = some j := by
  rw [setEdge_of_ne, h]
  rintro ⟨rfl, rfl⟩
  rw [hfree] at h
  cases h

/-- A walk in the pool with a leaf linked is an old one, or takes the new edge last. -/
theorem walk_link (hno : ∀ b', e c b' = none) (hic : i ≠ c) {j k : Nat} {path : List β}
    (h : walk (setEdge e i b (some c)) j path = some k) :
    walk e j path = some k ∨ k = c ∧ ∃ init, path = init ++ [b] ∧ walk e j init = some i := by
  induction path generalizing j with
  | nil => exact Or.inl h
  | cons b' path ih =>
      rw [walk] at h
      obtain ⟨m, hm, h⟩ := Option.bind_eq_some_iff.mp h
      by_cases hjb : j = i ∧ b' = b
      · obtain ⟨rfl, rfl⟩ := hjb
        rw [setEdge_self] at hm
        obtain rfl := Option.some.inj hm
        -- no edge goes on from the leaf
        obtain rfl : path = [] := by
          cases path with
          | nil => rfl
          | cons b'' path =>
              rw [walk, setEdge_of_ne _ fun h => hic h.1.symm, hno] at h
              cases h
        exact Or.inr ⟨(Option.some.inj h).symm, [], rfl, rfl⟩
      · rw [setEdge_of_ne _ hjb] at hm
        rcases ih h with hold | ⟨hk, init, rfl, hinit⟩
        · exact Or.inl (by rw [walk, hm, Option.bind_some, hold])
        · exact Or.inr ⟨hk, b' :: init, rfl, by rw [walk, hm, Option.bind_some, hinit]⟩

theorem Forest.link (hf : Forest e) (hlt : i < c) (hfresh : ∀ j b', e j b' ≠ some c) :
    Forest (setEdge e i b (some c)) := by
  -- an edge of the new pool is the new one, or an old one that ends elsewhere
  have hcases : ∀ {i' b' j}, setEdge e i b (some c) i' b' = some j →
      (i' = i ∧ b' = b ∧ j = c) ∨ (e i' b' = some j ∧ j ≠ c) := by
    intro i' b' j h
    by_cases hib : i' = i ∧ b' = b
    · obtain ⟨rfl, rfl⟩ := hib
      rw [setEdge_self] at h
      exact Or.inl ⟨rfl, rfl, (Option.some.inj h).symm⟩
    · rw [setEdge_of_ne _ hib] at h
      refine Or.inr ⟨h, ?_⟩
      rintro rfl
      exact hfresh i' b' h
  refine ⟨?_, ?_⟩
  · intro i' b' j h
    rcases hcases h with ⟨rfl, -, rfl⟩ | ⟨h, -⟩
    · exact hlt
    · exact hf.lt i' b' j h
  · intro i₁ b₁ i₂ b₂ j h₁ h₂
    rcases hcases h₁ with ⟨rfl, rfl, rfl⟩ | ⟨h₁, hne₁⟩
    · rcases hcases h₂ with ⟨rfl, rfl, -⟩ | ⟨-, hne₂⟩
      · exact ⟨rfl, rfl⟩
      · exact absurd rfl hne₂
    · rcases hcases h₂ with ⟨-, -, rfl⟩ | ⟨h₂, -⟩
      · exact absurd rfl hne₁
      · exact hf.unique _ _ _ _ _ h₁ h₂

/-- **Linking** an empty leaf changes nothing that is found. -/
theorem find_link (hfree : e i b = none) (hleaf : Leaf e val c) (hic : i ≠ c) (path : List β) :
    find (setEdge e i b (some c)) val path = find e val path := by
  rw [find, find]
  cases hwalk : walk (setEdge e i b (some c)) 0 path with
  | some k =>
      rcases walk_link hleaf.edges hic hwalk with hold | ⟨rfl, init, rfl, hinit⟩
      · rw [hold]
      · -- the path ends at the leaf now, and before it was not there
        rw [Option.bind_some, hleaf.value, walk_concat, hinit, Option.bind_some, hfree,
          Option.bind_none]
  | none =>
      cases hold : walk e 0 path with
      | none => rfl
      | some k =>
          rw [walk_mono (link_sub hfree) hold] at hwalk
          cases hwalk

/-- **Unlinking** an empty leaf changes nothing that is found. -/
theorem find_unlink (hedge : e i b = some c) (hleaf : Leaf e val c) (path : List β) :
    find (setEdge e i b none) val path = find e val path := by
  have hwalk : ∀ (path : List β) (j : Nat),
      (walk (setEdge e i b none) j path).bind val = (walk e j path).bind val := by
    intro path
    induction path with
    | nil => exact fun j => rfl
    | cons b' path ih =>
        intro j
        rw [walk, walk]
        by_cases hjb : j = i ∧ b' = b
        · -- the cut off node held nothing, and no path went on from it
          obtain ⟨rfl, rfl⟩ := hjb
          rw [setEdge_self, hedge, Option.bind_some, Option.bind_none]
          cases path with
          | nil => exact hleaf.value.symm
          | cons b'' path =>
              rw [walk, hleaf.edges]
              rfl
        · rw [setEdge_of_ne _ hjb]
          cases e j b' with
          | none => rfl
          | some k => exact ih k
  exact hwalk path 0

theorem unlink_sub (i' : Nat) (b' : β) (j : Nat) (h : setEdge e i b none i' b' = some j) :
    e i' b' = some j := by
  by_cases hib : i' = i ∧ b' = b
  · obtain ⟨rfl, rfl⟩ := hib
    rw [setEdge_self] at h
    cases h
  · rwa [setEdge_of_ne _ hib] at h

/-- Nothing leads to a node once the edge to it is cut. -/
theorem Forest.not_reaches_unlink (hf : Forest e) (hedge : e i b = some c) :
    ¬ Reaches (setEdge e i b none) 0 c := by
  rintro ⟨path, hpath⟩
  rcases List.eq_nil_or_concat path with rfl | ⟨init, b', rfl⟩
  · obtain rfl : 0 = c := Option.some.inj hpath
    exact absurd (hf.lt _ _ _ hedge) (Nat.not_lt_zero _)
  · rw [List.concat_eq_append, walk_concat] at hpath
    obtain ⟨j, -, hlast⟩ := Option.bind_eq_some_iff.mp hpath
    obtain ⟨rfl, rfl⟩ := hf.unique _ _ _ _ _ (unlink_sub j b' c hlast) hedge
    rw [setEdge_self] at hlast
    cases hlast

/-- **Linking** an empty leaf below node `i`, on a path short enough. -/
theorem Tight.link (h : Tight e val depth i) (hf : Forest e)
    (hno : ∀ b', e c b' = none) (hic : i ≠ c) {path : List β} (hpath : walk e 0 path = some i)
    (hlen : path.length < depth) : Tight (setEdge e i b (some c)) val depth c := by
  refine ⟨?_, ?_⟩
  · intro path' j hj
    rcases walk_link hno hic hj with hold | ⟨-, init, rfl, hinit⟩
    · exact h.length_le path' j hold
    · rw [hf.walk_injective hinit hpath, List.length_append]
      exact hlen
  · rintro j ⟨path', hj⟩ hleaf
    rcases walk_link hno hic hj with hold | ⟨hjc, -⟩
    · -- node `i` has an edge now; another node has the edges it had
      have hji : j ≠ i := by
        rintro rfl
        exact not_leaf_of_edge (setEdge_self e j b (some c)) hleaf
      have hedges : ∀ b', e j b' = none := by
        intro b'
        rw [← hleaf.edges b', setEdge_of_ne _ fun hjb => hji hjb.1]
      rcases h.leaf j ⟨path', hold⟩ ⟨hedges, hleaf.value⟩ with hzero | heq
      · exact Or.inl hzero
      · exact absurd heq hji
    · exact Or.inr hjc

/-- **Unlinking** node `c`, which may be an empty leaf, leaves that to node `i`. -/
theorem Tight.unlink (h : Tight e val depth c) (hf : Forest e) (hedge : e i b = some c) :
    Tight (setEdge e i b none) val depth i := by
  refine ⟨fun path j hj => h.length_le path j (walk_mono unlink_sub hj), ?_⟩
  rintro j ⟨path, hj⟩ hleaf
  by_cases hji : j = i
  · exact Or.inr hji
  · have hedges : ∀ b', e j b' = none := by
      intro b'
      rw [← hleaf.edges b', setEdge_of_ne _ fun hjb => hji hjb.1]
    rcases h.leaf j ⟨path, walk_mono unlink_sub hj⟩ ⟨hedges, hleaf.value⟩ with hzero | rfl
    · exact Or.inl hzero
    · -- the one edge to `c` is gone
      exact absurd ⟨path, hj⟩ (hf.not_reaches_unlink hedge)

end Link
end Walk
