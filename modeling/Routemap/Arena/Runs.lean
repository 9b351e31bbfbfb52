/-
  Routemap.Arena.Runs

  Runs of the archived binary trie, and its comparison with `RouteMap`: both
  refine the map of the live prefixes, and a call has one right reply in a map.

  A run of the trie returns whatever its length, but it is only right while the
  indices last.  The number of nodes never shrinks, so that is asked of the state
  a run ends in.
-/
import Routemap.Arena.Refine
import Routemap.Treebitmap.Runs

namespace Routemap

variable {A V : Type} [IpAddress A]

/-- A call of the interface the two tables share. -/
inductive Op (A V : Type) [IpAddress A] where
  | insert (pfx : IpPrefix A) (value : V)
  | remove (pfx : IpPrefix A)
  | contains (pfx : IpPrefix A)
  | longestMatch (addr : A)

/-- The call of `RouteMap` of the same name. -/
def Op.call : Op A V → Call A V
  | .insert pfx value => .insert pfx value
  | .remove pfx => .remove pfx
  | .contains pfx => .contains pfx
  | .longestMatch addr => .longestMatch addr

/-- Take a call on an arena. -/
def ArenaTable.exec (t : ArenaTable A V) : Op A V → M (ArenaTable A V × Reply A V)
  | .insert pfx value => do pure (← t.insert pfx value, .unit)
  | .remove pfx => do
    let (t, removed) ← t.remove pfx
    pure (t, .value removed)
  | .contains pfx => do pure (t, .flag (← t.contains pfx))
  | .longestMatch addr => do pure (t, .value (← t.longestMatch addr))

namespace ArenaTable

/-- What a call does to an arena, by the runs of its loops. -/
inductive Step (t : ArenaTable A V) : Op A V → ArenaTable A V → Reply A V → Prop where
  | insert {pfx : IpPrefix A} {v : V} {nodes : List (ArenaNode V)} {cur : Nat} {node : ArenaNode V}
      (hrun : InsertRun t.nodes 0 (network pfx).bitPath nodes cur)
      (hget : nodes[cur]? = some node) :
      Step t (.insert pfx v) ⟨nodes.set cur { node with value := some v }⟩ .unit
  | remove {pfx : IpPrefix A} {nodes : List (ArenaNode V)} {value : Option V} {empty : Bool}
      (hrun : RemoveRun t.nodes 0 (network pfx).bitPath nodes value empty) :
      Step t (.remove pfx) ⟨nodes⟩ (.value value)
  | contains {pfx : IpPrefix A} {flag : Bool} (h : t.contains pfx = .ok flag) :
      Step t (.contains pfx) t (.flag flag)
  | longestMatch {addr : A} {found : Option V} (h : t.longestMatch addr = .ok found) :
      Step t (.longestMatch addr) t (.value found)

variable {t t' : ArenaTable A V} {op : Op A V} {reply : Reply A V}

/-- A step is what `exec` returns. -/
theorem Step.exec (h : t.Step op t' reply) : t.exec op = .ok (t', reply) := by
  cases h with
  | insert hrun hget => exact congrArg (fun x => x >>= _) (insert_eq _ _ hrun hget)
  | remove hrun => exact congrArg (fun x => x >>= _) (remove_eq _ hrun)
  | contains h => exact congrArg (fun x => x >>= _) h
  | longestMatch h => exact congrArg (fun x => x >>= _) h

/-- Every call is such a step. -/
theorem exists_step (hb : InBounds t.nodes) (op : Op A V) : ∃ t' reply, t.Step op t' reply := by
  cases op with
  | insert pfx v =>
      obtain ⟨nodes, cur, node, hrun, hget, -⟩ := insert_run hb pfx v
      exact ⟨_, _, .insert hrun hget⟩
  | remove pfx =>
      obtain ⟨nodes, value, empty, hrun, -⟩ := remove_run hb pfx
      exact ⟨_, _, .remove hrun⟩
  | contains pfx =>
      obtain ⟨flag, h, -⟩ := contains_ok (m := fun _ => none) hb pfx
      exact ⟨_, _, .contains h⟩
  | longestMatch addr =>
      obtain ⟨found, h, -⟩ := longestMatch_ok (m := fun _ => none) hb addr
      exact ⟨_, _, .longestMatch h⟩

theorem Step.of_exec (hb : InBounds t.nodes) (h : t.exec op = .ok (t', reply)) :
    t.Step op t' reply := by
  obtain ⟨t₁, reply₁, hstep⟩ := exists_step hb op
  have heq := hstep.exec.symm.trans h
  cases heq
  exact hstep

end ArenaTable

/-- The replies of a run of an empty arena, and the arena it ends in. -/
def runOps (ops : List (Op A V)) : M (ArenaTable A V × List (Reply A V)) :=
  Run.run ArenaTable.exec ArenaTable.new ops

variable {t : ArenaTable A V} {m : Fib (IpAddress.bits A) V}

/-- **One call** on an arena returns, allocates or leaves the nodes there, and is
    right while the indices last. -/
theorem ArenaTable.exec_ok (hb : InBounds t.nodes) (op : Op A V) :
    ∃ t' reply, t.exec op = .ok (t', reply) ∧ InBounds t'.nodes
      ∧ t.nodes.length ≤ t'.nodes.length
      ∧ (t.Represents m → t'.nodes.length ≤ NULL →
          t'.Represents (op.call.apply m) ∧ op.call.Answer m reply) := by
  cases op with
  | insert pfx value =>
      obtain ⟨t', hrun, hb', hle, h⟩ := insert_ok hb pfx value
      refine ⟨t', .unit, congrArg (fun x => x >>= _) hrun, hb', hle, ?_⟩
      intro hm hgood
      exact ⟨h hm hgood, trivial⟩
  | remove pfx =>
      obtain ⟨t', value, hrun, hb', hlen, h⟩ := remove_ok hb pfx
      refine ⟨t', .value value, congrArg (fun x => x >>= _) hrun, hb', hlen.ge, ?_⟩
      intro hm _
      exact (h hm).symm
  | contains pfx =>
      obtain ⟨flag, hrun, h⟩ := contains_ok hb pfx
      refine ⟨t, .flag flag, congrArg (fun x => x >>= _) hrun, hb, Nat.le_refl _, ?_⟩
      intro hm _
      exact ⟨hm, h hm⟩
  | longestMatch addr =>
      obtain ⟨found, hrun, h⟩ := longestMatch_ok hb addr
      refine ⟨t, .value found, congrArg (fun x => x >>= _) hrun, hb, Nat.le_refl _, ?_⟩
      intro hm _
      exact ⟨hm, h hm⟩

/-- **Every run of the arena** returns, and refines the map of the live prefixes
    if the indices have not run out at its end. -/
theorem runOps_represents (ops : List (Op A V)) :
    ∃ a replies, runOps ops = .ok (a, replies)
      ∧ (a.nodes.length ≤ NULL →
          a.Represents ((ops.map Op.call).foldl Call.apply fun _ => none)
          ∧ Run.Answers Call.apply Call.Answer (fun _ => none) (ops.map Op.call) replies) := by
  have hstep : ∀ (t : ArenaTable A V) (m : Fib (IpAddress.bits A) V) (op : Op A V),
      InBounds t.nodes → ∃ t' reply, t.exec op = .ok (t', reply) ∧ InBounds t'.nodes
        ∧ (t'.nodes.length ≤ NULL → t.nodes.length ≤ NULL)
        ∧ (t.Represents m → t'.nodes.length ≤ NULL →
            t'.Represents (op.call.apply m) ∧ op.call.Answer m reply) := by
    intro t m op hb
    obtain ⟨t', reply, hexec, hb', hle, h⟩ := ArenaTable.exec_ok hb op
    exact ⟨t', reply, hexec, hb', Nat.le_trans hle, h⟩
  obtain ⟨a, replies, hrun, -, -, hsim⟩ := Run.run_refines_while (m := fun _ => none) hstep
    ArenaTable.represents_new.inBounds ops
  refine ⟨a, replies, hrun, ?_⟩
  intro hgood
  rw [List.foldl_map, Run.answers_map]
  exact hsim ArenaTable.represents_new hgood

/-- In a map, a call that both tables have has one right reply. -/
theorem Op.answer_unique (m : Fib (IpAddress.bits A) V) (op : Op A V) (r r' : Reply A V)
    (h : op.call.Answer m r) (h' : op.call.Answer m r') : r = r' := by
  -- the shape of a right reply is given by the call
  cases op <;> cases r <;> try exact h.elim
  all_goals cases r' <;> try exact h'.elim
  · rfl
  · exact congrArg Reply.value (h.trans h'.symm)
  · exact congrArg Reply.flag (h.trans h'.symm)
  · exact congrArg Reply.value (Option.ext fun v => (h v).trans (h' v).symm)

/-- **The two tables agree.**  Taken in the same order on an empty arena and an empty
    `RouteMap`, the shared calls get the same replies, provided the run allocates at
    most `u32::MAX` nodes.  An arena never gives a node back, so that is the length
    it ends with. -/
theorem arena_agrees (ops : List (Op A V)) :
    ∃ a t replies replies', runOps ops = .ok (a, replies)
      ∧ runCalls (ops.map Op.call) = .ok (t, replies')
      ∧ (a.nodes.length ≤ NULL → replies = replies') := by
  obtain ⟨a, replies, hrun, hsim⟩ := runOps_represents ops
  obtain ⟨t, replies', hrun', -, hanswers'⟩ := run_represents (ops.map Op.call)
  refine ⟨a, t, replies, replies', hrun, hrun', ?_⟩
  intro hgood
  obtain ⟨-, hanswers⟩ := hsim hgood
  rw [Run.answers_map] at hanswers hanswers'
  exact Run.Answers.unique Op.answer_unique hanswers hanswers'

end Routemap
