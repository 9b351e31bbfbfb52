/-
  Routemap.Treebitmap.Turns

  The iterator turn by turn, on every well formed tree, pruned or not: how many
  turns the loop of a call takes, how high the stack gets, and what all the calls
  return.

  The frames of the stack are one for each stride from the root to the top one
  (`Stacked`), so the depth of the tree bounds their number; and every turn lowers
  the `cost` of `Iter`, so the loop ends.
-/
import Routemap.Treebitmap.Runs

namespace Routemap

open TbNode

/-! ## Stored values -/

section Stored

variable {V : Type}

mutual
/-- The number of values stored in a tree. -/
def TbNode.stored : TbNode V → Nat
  | ⟨_, _, values, children⟩ => values.length + storedBelow children

/-- The number of values stored in a list of trees. -/
def storedBelow : List (TbNode V) → Nat
  | [] => 0
  | child :: rest => child.stored + storedBelow rest
end

theorem storedBelow_eq {children : List (TbNode V)}
    (h : ∀ c ∈ children, c.stored = c.ones) : storedBelow children = onesBelow children := by
  induction children with
  | nil => rfl
  | cons c rest ih =>
      rw [storedBelow, onesBelow, h c (List.mem_cons_self ..),
        ih fun d hd => h d (List.mem_cons_of_mem _ hd)]

/-- A tree stores a value for each internal bit. -/
theorem TbNode.Packed.stored_eq {n : TbNode V} (hp : Packed n) : n.stored = n.ones := by
  induction hp with
  | @node n values children below ih =>
      cases n
      rw [stored, ones, storedBelow_eq ih]
      exact congrArg (· + _) values

end Stored

namespace Iter

/-! ## The stack -/

section Stack

variable {V : Type}

/-- Each frame stands on the frames of the strides before it. -/
def Stacked : List (IterFrame V) → Prop
  | [] => True
  | frame :: below => frame.hop = below.length ∧ Stacked below

theorem childFrame_hop {addrBits nib : Nat} {frame child : IterFrame V}
    (h : childFrame addrBits frame nib = .ok child) : child.hop = frame.hop + 1 := by
  obtain ⟨hop, addr, node, hpos, -, rfl⟩ := childFrame_eq_ok h
  simp only [childPos, bind_eq_ok, checkedAdd_eq_ok, pure_eq_ok, Except.ok.injEq] at hpos
  obtain ⟨_, ⟨-, rfl⟩, _, -, _, -, _, -, heq⟩ := hpos
  cases heq
  rfl

/-- A move keeps the stack in step with the strides. -/
theorem Moves.stacked {addrBits : Nat} {stack stack' : List (IterFrame V)}
    (h : Moves addrBits stack stack') (hs : Stacked stack) : Stacked stack' := by
  cases h with
  | pop frame => exact hs.2
  | scan frame below hic hcursor => exact hs
  | @push frame below cursor nib child hic hec hnib hchild =>
      obtain ⟨hhop, hbelow⟩ := hs
      refine ⟨?_, hhop, hbelow⟩
      rw [childFrame_hop hchild, hhop, List.length_cons]

end Stack

variable {A V : Type} [IpAddress A] {it : Iter A V}

/-- The strides of an address bound the stack. -/
theorem Ok.length_le (ok : it.Ok) (hs : Stacked it.stack) :
    it.stack.length ≤ iterCapacity A := by
  rw [iterCapacity, STRIDE]
  cases hstack : it.stack with
  | nil => exact Nat.zero_le _
  | cons frame below =>
      rw [hstack] at hs
      have hhop := (ok.frames frame (by simp [hstack])).hop_le
      rw [List.length_cons, ← hs.1]
      omega

/-! ## The loop of a call -/

/-- How the loop of `next` stands after at most `k` turns. -/
def turns : Nat → Iter A V → M (Turn A V)
  | 0, it => pure (.again it)
  | k + 1, it => do
    match ← it.step with
    | .again it => turns k it
    | turn => pure turn

theorem turns_of_done (h : it.step = .ok .done) (k : Nat) : it.turns (k + 1) = .ok .done := by
  rw [turns, h]
  rfl

theorem turns_of_yield {entry : IpPrefix A × V} {it' : Iter A V}
    (h : it.step = .ok (.yield entry it')) (k : Nat) :
    it.turns (k + 1) = .ok (.yield entry it') := by
  rw [turns, h]
  rfl

theorem turns_of_again {it' : Iter A V} (h : it.step = .ok (.again it')) (k : Nat) :
    it.turns (k + 1) = it'.turns k := by
  rw [turns, h]
  rfl

/-- Every state that the loop gets to is one of the iterator, in step with the strides. -/
theorem turns_ok {it : Iter A V} (ok : it.Ok) (hs : Stacked it.stack) (k : Nat) :
    ∃ turn, it.turns k = .ok turn
      ∧ ∀ it', turn.rest? = some it' → it'.Ok ∧ Stacked it'.stack := by
  induction k generalizing it with
  | zero =>
      refine ⟨.again it, rfl, ?_⟩
      intro it' hrest
      cases hrest
      exact ⟨ok, hs⟩
  | succ k ih =>
      rcases step_ok ok with
        ⟨hstep, -⟩ | ⟨entry, it', hstep, ok', -⟩ | ⟨it', hstep, ok', -⟩
      · refine ⟨.done, turns_of_done hstep k, ?_⟩
        intro it' hrest
        cases hrest
      · refine ⟨.yield entry it', turns_of_yield hstep k, ?_⟩
        intro it'' hrest
        cases hrest
        exact ⟨ok', (step_moves hstep rfl).stacked hs⟩
      · rw [turns_of_again hstep]
        exact ih ok' ((step_moves hstep rfl).stacked hs)

/-- **The loop ends**, within one turn more than the cost of the state it starts in,
    and the call returns what its last turn does. -/
theorem turns_end {it : Iter A V} (ok : it.Ok) :
    ∃ k ≤ it.cost + 1,
      (∃ it', it.turns k = .ok .done ∧ it.next = .ok (none, it'))
      ∨ ∃ entry it', it.turns k = .ok (.yield entry it') ∧ it.next = .ok (some entry, it') := by
  rcases step_ok ok with ⟨hstep, -⟩ | ⟨entry, it', hstep, -⟩ | ⟨it', hstep, ok', -⟩
  · exact ⟨1, by omega, Or.inl ⟨it, turns_of_done hstep 0, next_of_done hstep⟩⟩
  · exact ⟨1, by omega, Or.inr ⟨entry, it', turns_of_yield hstep 0, next_of_yield hstep⟩⟩
  · have hlt := step_cost hstep rfl
    obtain ⟨k, hk, hend⟩ := turns_end ok'
    refine ⟨k + 1, by omega, ?_⟩
    rwa [turns_of_again hstep, next_of_again hstep]
termination_by it.cost

/-- A call leaves the stack in step with the strides. -/
theorem next_stacked {it it' : Iter A V} {found : Option (IpPrefix A × V)}
    (h : it.next = .ok (found, it')) (hs : Stacked it.stack) : Stacked it'.stack := by
  rw [next] at h
  split at h
  case h_1 => cases h
  case h_2 =>
    cases h
    exact hs
  case h_3 hstep =>
    cases h
    exact (step_moves hstep rfl).stacked hs
  case h_4 it'' hstep =>
    have hlt := step_cost hstep rfl
    exact next_stacked h ((step_moves hstep rfl).stacked hs)
termination_by it.cost

/-! ## All the calls -/

/-- What `n` calls of `next` return, and the iterator they leave. -/
def calls : Nat → Iter A V → M (List (Option (IpPrefix A × V)) × Iter A V)
  | 0, it => pure ([], it)
  | n + 1, it => do
    let (found, it) ← it.next
    let (rest, it) ← calls n it
    pure (found :: rest, it)

theorem calls_succ {found : Option (IpPrefix A × V)} {it' it'' : Iter A V} {n : Nat}
    {rest : List (Option (IpPrefix A × V))} (h : it.next = .ok (found, it'))
    (hrest : it'.calls n = .ok (rest, it'')) :
    it.calls (n + 1) = .ok (found :: rest, it'') := by
  rw [calls, h]
  change (do let (rest, it) ← it'.calls n; pure (found :: rest, it)) = _
  rw [hrest]
  rfl

/-- The entries, and then `None` for ever. -/
def results (entries : List (IpPrefix A × V)) (n : Nat) : List (Option (IpPrefix A × V)) :=
  (entries.take n).map some ++ List.replicate (n - entries.length) none

theorem results_zero (entries : List (IpPrefix A × V)) : results entries 0 = [] := by
  simp [results]

theorem results_cons (entry : IpPrefix A × V) (entries : List (IpPrefix A × V)) (n : Nat) :
    results (entry :: entries) (n + 1) = some entry :: results entries n := by
  rw [results, results, List.take_succ_cons, List.map_cons, List.length_cons,
    Nat.add_sub_add_right, List.cons_append]

theorem results_nil (n : Nat) :
    results ([] : List (IpPrefix A × V)) (n + 1) = none :: results [] n := by
  simp [results, List.replicate_succ]

/-- **The calls** return the pending entries one by one, and `None` from then on. -/
theorem calls_ok {it : Iter A V} (ok : it.Ok) (hs : Stacked it.stack)
    {entries : List (SlotKey × V)} (hpend : it.pending = entries) :
    ∃ es : List (IpPrefix A × V), es.map slotEntry = entries
      ∧ ∀ n, ∃ it', it.calls n = .ok (results es n, it') ∧ it'.Ok ∧ Stacked it'.stack := by
  induction entries generalizing it with
  | nil =>
      refine ⟨[], rfl, ?_⟩
      intro n
      induction n generalizing it with
      | zero => exact ⟨it, by rw [results_zero]; rfl, ok, hs⟩
      | succ n ih =>
          rcases next_ok ok with ⟨it', hnext, ok', -, hnil⟩ | ⟨entry, it', -, -, -, hp⟩
          · obtain ⟨it'', hrun, h''⟩ := ih ok' (next_stacked hnext hs) hnil
            exact ⟨it'', by rw [results_nil, calls_succ hnext hrun], h''⟩
          · rw [hpend] at hp
            cases hp
  | cons e entries ih =>
      rcases next_ok ok with ⟨it', -, -, hnil, -⟩ | ⟨entry, it', hnext, ok', -, hp⟩
      · rw [hnil] at hpend
        cases hpend
      · rw [hpend] at hp
        obtain ⟨he, hrest⟩ := List.cons.inj hp
        have hs' := next_stacked hnext hs
        obtain ⟨es, hmap, hcalls⟩ := ih ok' hs' hrest.symm
        refine ⟨entry :: es, by rw [List.map_cons, hmap, he], ?_⟩
        intro n
        cases n with
        | zero => exact ⟨it, by rw [results_zero]; rfl, ok, hs⟩
        | succ n =>
            obtain ⟨it'', hrun, h''⟩ := hcalls n
            exact ⟨it'', by rw [results_cons, calls_succ hnext hrun], h''⟩

end Iter

/-! ## The whole iteration -/

variable {A V : Type} [IpAddress A]

/-- **The iterator terminates within its stack.**  On every well formed tree, empty
    nodes included, after any number of calls of `next`: the loop of the next call
    ends, and at every turn of it the stack has room in what `iter` reserved.  The
    calls return as many entries as there are values stored, and then `None` for
    ever. -/
theorem iter_terminates_bounded (t : RouteMap A V) (hs : Shape (levels A) t.root) :
    ∃ entries : List (IpPrefix A × V), entries.length = t.root.stored
      ∧ ∀ n, ∃ it, t.iter.calls n = .ok (Iter.results entries n, it)
        ∧ (∃ k ≤ it.cost + 1,
            (∃ it', it.turns k = .ok .done ∧ it.next = .ok (none, it'))
            ∨ ∃ entry it', it.turns k = .ok (.yield entry it')
              ∧ it.next = .ok (some entry, it'))
        ∧ ∀ k, ∃ turn, it.turns k = .ok turn
          ∧ ∀ it', turn.rest? = some it' → it'.stack.length ≤ iterCapacity A := by
  obtain ⟨ok, hpend⟩ := RouteMap.iter_ok hs
  have hstacked : Iter.Stacked t.iter.stack := ⟨rfl, trivial⟩
  obtain ⟨es, hmap, hcalls⟩ := Iter.calls_ok ok hstacked hpend
  refine ⟨es, ?_, ?_⟩
  · rw [hs.packed.stored_eq, ← hs.length_entries [], ← hmap, List.length_map]
  · intro n
    obtain ⟨it, hrun, ok', hs'⟩ := hcalls n
    refine ⟨it, hrun, Iter.turns_end ok', ?_⟩
    intro k
    obtain ⟨turn, hturn, hrest⟩ := Iter.turns_ok ok' hs' k
    refine ⟨turn, hturn, ?_⟩
    intro it' hit'
    obtain ⟨ok'', hs''⟩ := hrest it' hit'
    exact ok''.length_le hs''

/-- A value at the root and an empty leaf below it: one entry, and then `None`. -/
theorem iter_terminates_bounded_emptyLeaf :
    ∃ entry : IpPrefix Ipv4Addr × Nat, ∀ n, ∃ it,
      (⟨(TbNode.new.setValue 1 7).setChild 0 TbNode.new, 1⟩ : RouteMap Ipv4Addr Nat).iter.calls n
        = .ok (Iter.results [entry] n, it) := by
  have hvalue : Shape (levels Ipv4Addr) ((TbNode.new : TbNode Nat).insertPath [] 1 7) :=
    (shape_new _).insertPath ⟨Nat.zero_le _, by simp, by decide, by decide, by decide⟩ 7
  have hs : Shape (levels Ipv4Addr) ((TbNode.new.setValue 1 7).setChild 0 TbNode.new) :=
    hvalue.setChild (by decide) (shape_new _)
  obtain ⟨entries, hlen, hcalls⟩ :=
    iter_terminates_bounded (⟨_, 1⟩ : RouteMap Ipv4Addr Nat) hs
  obtain ⟨entry, rfl⟩ := List.length_eq_one_iff.mp (hlen.trans (by decide))
  refine ⟨entry, ?_⟩
  intro n
  obtain ⟨it, hrun, -⟩ := hcalls n
  exact ⟨it, hrun⟩

end Routemap
