/-
  Routemap.Arena.Shape

  The shape of the tree in the arena while indices last: links lead to later
  nodes, one link to a node, no path longer than an address, and no empty leaf
  but the root.  The loops break the last of these at one node at a time, the
  node they are at; `Tight` names it.

  A node that no path leads to stays out of reach, whatever is called, and what
  it holds makes no difference.
-/
import Routemap.Arena.Runs

namespace Routemap

open Walk

section Pool

variable {V : Type} {nodes nodes' : List (ArenaNode V)} {cur cur' i depth : Nat}
  {path rest : List (Fin 2)} {value : Option V} {empty : Bool}

/-! ## No empty leaf -/

/-- The loop of `insert` leaves no empty leaf but the node it ends at. -/
theorem InsertRun.tight (h : InsertRun nodes cur rest nodes' cur') (hb : InBounds nodes)
    (hlen : nodes'.length ≤ NULL) (hf : Forest (edge nodes))
    (hpath : walk (edge nodes) 0 path = some cur) (hdepth : path.length + rest.length ≤ depth)
    (ht : Tight (edge nodes) (valueOf nodes) depth cur) :
    Tight (edge nodes') (valueOf nodes') depth cur' := by
  induction h generalizing path with
  | done => exact ht
  | follow hedge _ ih =>
      -- the node left behind has an edge
      have ht' := (ht.settle (not_leaf_of_edge hedge)).weaken
      rw [List.length_cons] at hdepth
      refine ih hb hlen hf (walk_snoc hpath hedge) ?_ (ht' _)
      rw [List.length_append, List.length_singleton]
      omega
  | push hget hfree hrest ih =>
      obtain ⟨hcur, -⟩ := List.getElem?_eq_some_iff.mp hget
      have hlt := hrest.length_lt
      have hpush := Extended.pushAt hb hget hfree (by omega) hf hpath
      rw [List.length_cons] at hdepth
      refine ih (hb.pushAt hget) hlen hpush.forest hpush.walk_eq ?_ ?_
      · rw [List.length_append, List.length_singleton]
        omega
      · rw [edge_pushAt_of_lt hget (by omega), valueOf_pushAt hget, cast_length (by omega)]
        exact ht.link hf (leaf_length _).edges (Nat.ne_of_lt hcur) hpath (by omega)

/-- The test on the way back up settles whether the node is an empty leaf. -/
theorem tight_of_test {node : ArenaNode V} (hget : nodes[cur]? = some node)
    (ht : Tight (edge nodes) (valueOf nodes) depth cur) :
    Tight (edge nodes) (valueOf nodes) depth
      (if node.value.isNone && node.noChild then cur else 0) := by
  split
  case isTrue => exact ht
  case isFalse htest => exact ht.settle (mt (leaf_iff hget).mp htest)

/-- `remove_recursive` leaves no empty leaf but the node it says is one. -/
theorem RemoveRun.tight (h : RemoveRun nodes cur rest nodes' value empty) (hf : Forest (edge nodes))
    (hpath : walk (edge nodes) 0 path = some cur)
    (ht : Tight (edge nodes) (valueOf nodes) depth 0) :
    Tight (edge nodes') (valueOf nodes') depth (if empty then cur else 0) := by
  induction h generalizing path with
  | clear hget =>
      obtain ⟨hcur, -⟩ := List.getElem?_eq_some_iff.mp hget
      refine tight_of_test (List.getElem?_set_self hcur) ?_
      rw [edge_setValue hget, valueOf_setValue hget]
      exact (ht.weaken _).update none
  | absent => exact ht
  | keep hedge _ hget ih =>
      have hrest := ih (walk_snoc hpath hedge)
      exact tight_of_test hget (hrest.weaken _)
  | unlink hedge hrest hget ih =>
      obtain ⟨hcur, -⟩ := List.getElem?_eq_some_iff.mp hget
      have hchild := walk_snoc hpath hedge
      have hrem := hrest.removed hf hchild
      refine tight_of_test (List.getElem?_set_self hcur) ?_
      rw [edge_setChild hget, link_null, valueOf_setChild hget]
      have hedge' := (congrFun (hrem.edge_eq (hf.lt _ _ _ hedge)) _).trans hedge
      exact (ih hchild).unlink hrem.forest hedge'

/-! ## Nodes out of reach -/

/-- The loop of `insert` reaches no node that was there and out of reach. -/
theorem InsertRun.reaches (h : InsertRun nodes cur path nodes' cur') (hlen : nodes'.length ≤ NULL)
    (hi : Reaches (edge nodes') 0 i) : Reaches (edge nodes) 0 i ∨ nodes.length ≤ i := by
  induction h with
  | done => exact Or.inl hi
  | follow _ _ ih => exact ih hlen hi
  | push hget _ hrest ih =>
      obtain ⟨hcur, -⟩ := List.getElem?_eq_some_iff.mp hget
      have hlt := hrest.length_lt
      rcases ih hlen hi with ⟨path, hpath⟩ | hge
      · rw [edge_pushAt_of_lt hget (by omega)] at hpath
        rcases walk_link (leaf_length _).edges (Nat.ne_of_lt hcur) hpath with hold | ⟨rfl, -⟩
        · exact Or.inl ⟨path, hold⟩
        · exact Or.inr (Nat.le_refl _)
      · rw [length_pushAt] at hge
        exact Or.inr (by omega)

theorem edge_set_of_ne {j : Nat} (h : j ≠ i) (junk : ArenaNode V) :
    edge (nodes.set i junk) j = edge nodes j := by
  funext bit
  rw [edge, edge, List.getElem?_set_ne (Ne.symm h)]

theorem pushAt_set {node : ArenaNode V} {bit : Fin 2} (hi : i < nodes.length) (h : cur ≠ i)
    (junk : ArenaNode V) :
    pushAt (nodes.set i junk) cur node bit = (pushAt nodes cur node bit).set i junk := by
  rw [pushAt, pushAt, List.length_set, ← List.set_append_left _ _ hi, List.set_comm _ _ h]

/-- The loop of `insert` does not see what a node out of its reach holds. -/
theorem InsertRun.set (h : InsertRun nodes cur path nodes' cur') (hlen : nodes'.length ≤ NULL)
    (hi : i < nodes.length) (hout : ¬ Reaches (edge nodes) cur i) (junk : ArenaNode V) :
    InsertRun (nodes.set i junk) cur path (nodes'.set i junk) cur' := by
  induction h with
  | done => exact .done _ _
  | follow hedge _ ih =>
      have hne := ne_of_not_reaches hout
      refine .follow ?_ (ih hlen hi fun h => hout (h.head hedge))
      rw [edge_set_of_ne hne, hedge]
  | push hget hfree hrest ih =>
      have hne := ne_of_not_reaches hout
      have hlt := hrest.length_lt
      refine .push ((List.getElem?_set_ne hne.symm).trans hget) ?_ ?_
      · rw [edge_set_of_ne hne, hfree]
      · rw [pushAt_set hi hne, List.length_set]
        refine ih hlen (by rw [length_pushAt]; omega) ?_
        -- the loop goes on at the pushed node, which has no edges
        intro hreach
        have heq := hreach.eq_of_no_edge (edge_pushAt_new hget (by omega))
        rw [cast_length (by omega)] at heq
        omega

/-- `remove_recursive` does not touch a node it cannot reach. -/
theorem RemoveRun.set (h : RemoveRun nodes cur path nodes' value empty)
    (hout : ¬ Reaches (edge nodes) cur i) (junk : ArenaNode V) :
    RemoveRun (nodes.set i junk) cur path (nodes'.set i junk) value empty := by
  induction h with
  | clear hget =>
      have hne := ne_of_not_reaches hout
      rw [List.set_comm _ _ hne]
      exact .clear ((List.getElem?_set_ne hne.symm).trans hget)
  | absent hcur hfree =>
      have hne := ne_of_not_reaches hout
      exact .absent (by rwa [List.length_set]) (by rw [edge_set_of_ne hne, hfree])
  | keep hedge _ hget ih =>
      have hne := ne_of_not_reaches hout
      exact .keep (by rw [edge_set_of_ne hne, hedge]) (ih fun h => hout (h.head hedge))
        ((List.getElem?_set_ne hne.symm).trans hget)
  | unlink hedge _ hget ih =>
      have hne := ne_of_not_reaches hout
      rw [List.set_comm _ _ hne]
      exact .unlink (by rw [edge_set_of_ne hne, hedge]) (ih fun h => hout (h.head hedge))
        ((List.getElem?_set_ne hne.symm).trans hget)

theorem vecGet_set_of_ne (h : cur ≠ i) (junk : ArenaNode V) :
    vecGet (nodes.set i junk) cur = vecGet nodes cur := by
  rw [vecGet, vecGet, List.getElem?_set_ne h.symm]

/-- A node out of reach of `cur` is out of reach of its child. -/
theorem not_reaches_child {node : ArenaNode V} {bit : Fin 2} (hget : vecGet nodes cur = .ok node)
    (hnull : ¬ (node.children bit == NULL) = true) (hout : ¬ Reaches (edge nodes) cur i) :
    ¬ Reaches (edge nodes) (node.children bit) i := by
  intro h
  refine hout (h.head (b := bit) ?_)
  rw [edge_of_get (vecGet_eq_ok.mp hget), link_eq_some]
  exact ⟨by simpa using hnull, rfl⟩

section Read

variable (addr : U128) (bits : Nat)

/-- The loop of `contains` does not read a node it cannot reach. -/
theorem containsLoop_set (left d : Nat) (hout : ¬ Reaches (edge nodes) cur i)
    (junk : ArenaNode V) :
    containsLoop addr bits (nodes.set i junk) left d cur
      = containsLoop addr bits nodes left d cur := by
  induction left generalizing d cur with
  | zero => rw [containsLoop, containsLoop, vecGet_set_of_ne (ne_of_not_reaches hout)]
  | succ left ih =>
      rw [containsLoop, containsLoop, vecGet_set_of_ne (ne_of_not_reaches hout)]
      refine bind_congr fun bit => ?_
      cases hget : vecGet nodes cur with
      | error e => rfl
      | ok node =>
          rw [ok_bind, ok_bind]
          dsimp only
          split
          case isTrue => rfl
          case isFalse hnull => exact ih (d + 1) (not_reaches_child hget hnull hout)

/-- The loop of `longest_match` does not read a node it cannot reach. -/
theorem matchLoop_set (left d : Nat) (hout : ¬ Reaches (edge nodes) cur i) (junk : ArenaNode V)
    (best : Option V) :
    matchLoop addr bits (nodes.set i junk) left d cur best
      = matchLoop addr bits nodes left d cur best := by
  induction left generalizing d cur best with
  | zero => rfl
  | succ left ih =>
      rw [matchLoop, matchLoop, vecGet_set_of_ne (ne_of_not_reaches hout)]
      refine bind_congr fun bit => ?_
      cases hget : vecGet nodes cur with
      | error e => rfl
      | ok node =>
          rw [ok_bind, ok_bind]
          dsimp only
          split
          case isTrue => rfl
          case isFalse hnull =>
            have hchild := not_reaches_child hget hnull hout
            rw [vecGet_set_of_ne (ne_of_not_reaches hchild)]
            exact bind_congr fun child => ih (d + 1) hchild _

end Read

end Pool

/-! ## Calls -/

variable {A V : Type} [IpAddress A]

namespace ArenaTable

variable {t t' : ArenaTable A V} {op : Op A V} {reply : Reply A V}

/-- An arena with no empty leaf below the root, no path longer than an address and
    one link at most to a node. -/
structure WellShaped (t : ArenaTable A V) : Prop where
  inBounds : InBounds t.nodes
  forest : Forest (edge t.nodes)
  tight : Tight (edge t.nodes) (valueOf t.nodes) (IpAddress.bits A) 0

theorem wellShaped_new : (new : ArenaTable A V).WellShaped where
  inBounds := represents_new.inBounds
  forest := represents_new.forest
  tight := by
    refine ⟨?_, fun i hi _ => Or.inl (hi.eq_of_no_edge (edge_new 0))⟩
    intro path i hpath
    cases path with
    | nil => exact Nat.zero_le _
    | cons bit path =>
        rw [new, walk, edge_new] at hpath
        cases hpath

/-- While indices last every step keeps the shape: `insert` gives the node it ends at a
    value, and the root is where `remove` may leave an empty leaf. -/
theorem WellShaped.step (hs : t.WellShaped) (h : t.Step op t' reply)
    (hlen : t'.nodes.length ≤ NULL) : t'.WellShaped := by
  obtain ⟨hb, hf, ht⟩ := hs
  cases h with
  | insert hrun hget =>
      rw [List.length_set] at hlen
      have hext := hrun.extended hb hlen hf (walk_nil 0)
      have htight := hrun.tight hb hlen hf (walk_nil 0)
        (by simpa using (network _).len_le) ht
      refine ⟨(hrun.inBounds hb hb.nonempty).1.setValue hget _, ?_, ?_⟩
      · rw [edge_setValue hget]
        exact hext.forest
      · rw [edge_setValue hget, valueOf_setValue hget]
        refine (htight.update _).settle ?_
        intro hleaf
        have hvalue := hleaf.value
        rw [Function.update_self] at hvalue
        cases hvalue
  | remove hrun =>
      have hrem := hrun.removed hf (walk_nil 0)
      have htight := hrun.tight hf (walk_nil 0) ht
      rw [ite_self] at htight
      exact ⟨hrun.inBounds hb, hrem.forest, htight⟩
  | contains => exact ⟨hb, hf, ht⟩
  | longestMatch => exact ⟨hb, hf, ht⟩

/-- Node `i` is in the `Vec` and no path leads to it: `remove` has unlinked it, or a
    node above it. -/
structure Detached (t : ArenaTable A V) (i : Nat) : Prop where
  lt : i < t.nodes.length
  unreached : ¬ Reaches (edge t.nodes) 0 i

theorem Detached.step {i : Nat} (hd : t.Detached i) (h : t.Step op t' reply)
    (hlen : t'.nodes.length ≤ NULL) : t'.Detached i := by
  obtain ⟨hlt, hout⟩ := hd
  cases h with
  | insert hrun hget =>
      rw [List.length_set] at hlen
      refine ⟨?_, ?_⟩
      · rw [List.length_set]
        exact Nat.lt_of_lt_of_le hlt hrun.length_le
      · rw [edge_setValue hget]
        intro hi
        rcases hrun.reaches hlen hi with hold | hge
        · exact hout hold
        · exact Nat.not_le_of_lt hlt hge
  | remove hrun =>
      refine ⟨?_, fun hi => hout (hi.mono hrun.edge_sub)⟩
      rw [hrun.length_eq]
      exact hlt
  | contains => exact ⟨hlt, hout⟩
  | longestMatch => exact ⟨hlt, hout⟩

/-- The arena with other contents in node `i`. -/
def overwrite (t : ArenaTable A V) (i : Nat) (junk : ArenaNode V) : ArenaTable A V :=
  ⟨t.nodes.set i junk⟩

/-- **A call does not see** what a detached node holds, and leaves it alone. -/
theorem Step.overwrite {i : Nat} (h : t.Step op t' reply) (hs : t.WellShaped) (hd : t.Detached i)
    (hlen : t'.nodes.length ≤ NULL) (junk : ArenaNode V) :
    (t.overwrite i junk).Step op (t'.overwrite i junk) reply := by
  have hd' := hd.step h hlen
  obtain ⟨hlt, hout⟩ := hd
  cases h with
  | @insert pfx v nodes cur node hrun hget =>
      rw [List.length_set] at hlen
      have hext := hrun.extended hs.inBounds hlen hs.forest (walk_nil 0)
      -- the loop ends at a node that is reached
      have hne : cur ≠ i := by
        rintro rfl
        refine hd'.unreached ⟨(network pfx).bitPath, ?_⟩
        rw [edge_setValue hget]
        exact hext.walk_eq
      rw [ArenaTable.overwrite, ArenaTable.overwrite, List.set_comm _ _ hne]
      exact .insert (hrun.set hlen hlt hout junk) ((List.getElem?_set_ne hne.symm).trans hget)
  | remove hrun => exact .remove (hrun.set hout junk)
  | contains h => exact .contains ((containsLoop_set _ _ _ _ hout junk).trans h)
  | longestMatch h =>
      refine .longestMatch (Eq.trans ?_ h)
      rw [ArenaTable.longestMatch, ArenaTable.longestMatch, ArenaTable.overwrite,
        vecGet_set_of_ne (ne_of_not_reaches hout)]
      exact bind_congr fun root => matchLoop_set _ _ _ _ hout junk _

end ArenaTable

/-! ## Runs -/

/-- A relation that every step keeps while indices last is kept by every run. -/
theorem run_keeps {R : ArenaTable A V → ArenaTable A V → Prop}
    (hstep : ∀ s t op s' reply, R s t → s.Step op s' reply → s'.nodes.length ≤ NULL →
      ∃ t', t.exec op = .ok (t', reply) ∧ R s' t')
    {a a' t : ArenaTable A V} {ops : List (Op A V)} {replies : List (Reply A V)}
    (hb : InBounds a.nodes) (hrun : Run.run ArenaTable.exec a ops = .ok (a', replies))
    (hlen : a'.nodes.length ≤ NULL) (ht : R a t) :
    ∃ t', Run.run ArenaTable.exec t ops = .ok (t', replies) ∧ R a' t' := by
  have hcall : ∀ (s : ArenaTable A V) (op : Op A V) s' reply, InBounds s.nodes →
      s.exec op = .ok (s', reply) → InBounds s'.nodes
        ∧ (s'.nodes.length ≤ NULL → s.nodes.length ≤ NULL)
        ∧ ∀ t, R s t → s'.nodes.length ≤ NULL → ∃ t', t.exec op = .ok (t', reply) ∧ R s' t' := by
    intro s op s' reply hb hexec
    obtain ⟨s₁, reply₁, hexec₁, hb', hle, -⟩ := ArenaTable.exec_ok (m := fun _ => none) hb op
    cases hexec₁.symm.trans hexec
    exact ⟨hb', Nat.le_trans hle, fun t ht => hstep s t op _ _ ht (.of_exec hb hexec)⟩
  obtain ⟨-, -, hsim⟩ := Run.run_simulates_while hcall hb hrun
  exact hsim t ht hlen

/-- **Every run** that returns with indices left keeps the shape. -/
theorem run_wellShaped {a a' : ArenaTable A V} {ops : List (Op A V)} {replies : List (Reply A V)}
    (hs : a.WellShaped) (hrun : Run.run ArenaTable.exec a ops = .ok (a', replies))
    (hlen : a'.nodes.length ≤ NULL) : a'.WellShaped := by
  obtain ⟨-, -, hs', -⟩ := run_keeps (R := fun s t => s.WellShaped ∧ t = s)
    (by
      rintro s t op s' reply ⟨hs, rfl⟩ hstep hlen
      exact ⟨s', hstep.exec, hs.step hstep hlen, rfl⟩)
    hs.inBounds hrun hlen ⟨hs, rfl⟩
  exact hs'

/-- **No run** finds its way back to a detached node or sees what it holds. -/
theorem run_overwrite {a a' : ArenaTable A V} {ops : List (Op A V)} {replies : List (Reply A V)}
    {i : Nat} (hs : a.WellShaped) (hd : a.Detached i)
    (hrun : Run.run ArenaTable.exec a ops = .ok (a', replies)) (hlen : a'.nodes.length ≤ NULL)
    (junk : ArenaNode V) :
    a'.Detached i
      ∧ Run.run ArenaTable.exec (a.overwrite i junk) ops = .ok (a'.overwrite i junk, replies) := by
  obtain ⟨t', hrun', -, hd', rfl⟩ := run_keeps
    (R := fun s t => s.WellShaped ∧ s.Detached i ∧ t = s.overwrite i junk)
    (by
      rintro s t op s' reply ⟨hs, hd, rfl⟩ hstep hlen
      exact ⟨_, (hstep.overwrite hs hd hlen junk).exec, hs.step hstep hlen, hd.step hstep hlen,
        rfl⟩)
    hs.inBounds hrun hlen ⟨hs, hd, rfl⟩
  exact ⟨hd', hrun'⟩

/-- **Shape of the arena.**  In every arena a run builds with at most `u32::MAX`
    nodes, links lead to later nodes in the `Vec`, a node has at most one link to it,
    and what the root reaches is at most as deep as an address is long and, below the
    root, holds a value or has a child.  Whatever is called next, a node out of reach
    stays so, and other contents in it would change no reply and no other node. -/
theorem arena_shape (ops : List (Op A V)) :
    ∃ a replies, runOps ops = .ok (a, replies) ∧ (a.nodes.length ≤ NULL →
      (∀ i bit j, edge a.nodes i bit = some j → i < j ∧ j < a.nodes.length)
      ∧ (∀ i bit i' bit' j, edge a.nodes i bit = some j → edge a.nodes i' bit' = some j →
          i = i' ∧ bit = bit')
      ∧ (∀ path i, walk (edge a.nodes) 0 path = some i → path.length ≤ IpAddress.bits A
          ∧ (i ≠ 0 → (∃ v, valueOf a.nodes i = some v) ∨ ∃ bit j, edge a.nodes i bit = some j))
      ∧ ∀ ops' a' replies', Run.run ArenaTable.exec a ops' = .ok (a', replies') →
          a'.nodes.length ≤ NULL →
          ∀ i, i < a.nodes.length → (∀ path, walk (edge a.nodes) 0 path ≠ some i) →
            (∀ path, walk (edge a'.nodes) 0 path ≠ some i)
            ∧ ∀ junk : ArenaNode V, Run.run ArenaTable.exec ⟨a.nodes.set i junk⟩ ops'
                = .ok (⟨a'.nodes.set i junk⟩, replies')) := by
  obtain ⟨a, replies, hrun, -⟩ := runOps_represents ops
  refine ⟨a, replies, hrun, ?_⟩
  intro hlen
  have hs := run_wellShaped ArenaTable.wellShaped_new hrun hlen
  refine ⟨?_, hs.forest.unique, ?_, ?_⟩
  · intro i bit j hedge
    exact ⟨hs.forest.lt i bit j hedge, hs.inBounds.edge_lt i bit j hedge⟩
  · intro path i hpath
    refine ⟨hs.tight.length_le path i hpath, ?_⟩
    intro hi
    by_contra hnot
    obtain ⟨hvalue, hedge⟩ := not_or.mp hnot
    have hleaf : Leaf (edge a.nodes) (valueOf a.nodes) i := by
      refine ⟨?_, Option.eq_none_iff_forall_ne_some.mpr (not_exists.mp hvalue)⟩
      intro bit
      exact Option.eq_none_iff_forall_ne_some.mpr (not_exists.mp (not_exists.mp hedge bit))
    exact hi ((hs.tight.leaf i ⟨path, hpath⟩ hleaf).elim id id)
  · intro ops' a' replies' hrun' hlen' i hi hout
    have hd : a.Detached i := ⟨hi, fun h => h.elim hout⟩
    refine ⟨?_, fun junk => (run_overwrite hs hd hrun' hlen' junk).2⟩
    intro path hpath
    exact (run_overwrite hs hd hrun' hlen' ArenaNode.new).1.unreached ⟨path, hpath⟩

end Routemap
