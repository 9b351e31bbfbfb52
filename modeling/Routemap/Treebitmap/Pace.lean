/-
  Routemap.Treebitmap.Pace

  How many turns the loop of the iterator takes.  Over the whole iteration it is one
  for each entry and two for each node, which is pushed once and popped once: `left`
  counts what is still to come, and every turn lowers it by one.

  Within one call of `next` it is at most one for each level on the way up and one
  for each level on the way down, as in a pruned tree every child that is pushed has
  an entry below it.
-/
import Routemap.Treebitmap.Nodes
import Routemap.Treebitmap.Turns

namespace Routemap

open TbNode

section Frame

variable {V : Type}

/-- The children that a frame has still to push, with their nibbles. -/
def IterFrame.childrenLeft (frame : IterFrame V) : List (Nat × TbNode V) :=
  RankVec.assoc frame.node.external.getLsbD frame.node.children frame.externalCursor 16

/-- The nodes below a frame that have still to be pushed. -/
def IterFrame.unvisited (frame : IterFrame V) : Nat :=
  (frame.childrenLeft.map fun e => e.2.size).sum

/-- The turns that a frame and the frames pushed above it take without returning
    an entry: a push and a pop for each of those nodes, and a pop of its own. -/
def IterFrame.visits (frame : IterFrame V) : Nat := 2 * frame.unvisited + 1

/-- A frame that has just been pushed has all of its tree before it but its own node. -/
theorem IterFrame.unvisited_pushed {h : Nat} {c : TbNode V} (hc : Shape h c) (hop : Nat)
    (addr : U128) (ic : Nat) : IterFrame.unvisited ⟨c, hop, addr, ic, 0⟩ + 1 = c.size := by
  have hchildren : (IterFrame.childrenLeft ⟨c, hop, addr, ic, 0⟩).map Prod.snd = c.children :=
    hc.nodeOk.children_fit.assoc_snd
  rw [c.size_eq, ← hchildren, List.map_map]
  rfl

end Frame

variable {A V : Type} [IpAddress A]

namespace Iter

variable {it : Iter A V} {frame : IterFrame V} {below : List (IterFrame V)}

/-! ## Turns in detail -/

/-- The second half of a turn pushes the next child of the frame, or pops the frame
    when there is none. -/
theorem descend_cases (hbits : it.addrBits = IpAddress.bits A)
    (ok : frame.Ok (IpAddress.bits A)) (below : List (IterFrame V)) :
    (∃ nib c addr, frame.node.childAt nib = some c
      ∧ frame.childrenLeft
        = (nib, c) :: IterFrame.childrenLeft { frame with externalCursor := nib + 1 }
      ∧ it.descend frame below = .ok (.again { it with
          stack := ⟨c, frame.hop + 1, addr, 1, 0⟩
            :: { frame with externalCursor := nib + 1 } :: below }))
    ∨ (frame.childrenLeft = []
      ∧ it.descend frame below = .ok (.again { it with stack := below })) := by
  rw [descend]
  split
  case isFalse hec =>
    exact Or.inr ⟨RankVec.assoc_eq_nil _ fun q hq hq' => absurd hq' (by omega), rfl⟩
  case isTrue hec =>
    rw [shiftAmount_ok (by omega), ok_bind]
    dsimp only
    split
    case isTrue hzero =>
      refine Or.inr ⟨RankVec.assoc_eq_nil _ fun q hq _ => ?_, rfl⟩
      exact RankVec.getLsbD_of_shift_zero (by simpa using hzero) hq
    case isFalse hne =>
      obtain ⟨c, hc⟩ := ok.shape.nodeOk.fit.exists_child_of_shift (by simpa using hne)
      obtain ⟨hnib, hpos⟩ := ok.shape.nodeOk.childAt_lt hc
      have hbits' := bits_le A
      have hnext : 4 * (frame.hop + 1) ≤ IpAddress.bits A := by
        have hdvd := stride_dvd A
        have hhop := ok.hop_le
        omega
      refine Or.inl ⟨frame.externalCursor + trailingZeros (frame.node.external
        >>> frame.externalCursor), c, frame.addr ||| BitVec.ofNat 128 (frame.externalCursor
        + trailingZeros (frame.node.external >>> frame.externalCursor))
          <<< (IpAddress.bits A - 4 * (frame.hop + 1)), hc, RankVec.assoc_cursor hnib hc, ?_⟩
      rw [checkedAdd_ok (by omega), ok_bind, checkedAdd_ok (by omega), ok_bind, hbits,
        childFrame, childPos_ok hbits' hnext, ok_bind]
      dsimp only
      rw [rank_ok _ (by omega), ok_bind, vecGet_ok (childAt_get hc), ok_bind, pure_eq_ok, ok_bind]
      rfl

/-- **A turn** returns an entry of the top frame, or pushes its next child when it has
    no entry left, or pops it when it has no child left either. -/
theorem step_cases (ok : it.Ok) (hstack : it.stack = frame :: below) :
    (∃ entry cursor, it.step = .ok (.yield entry { it with
        stack := { frame with internalCursor := cursor } :: below }))
    ∨ frame.node.valuesFrom (frame.path (IpAddress.bits A)) frame.internalCursor = []
      ∧ ((∃ nib c addr cursor, frame.node.childAt nib = some c
          ∧ frame.childrenLeft
            = (nib, c) :: IterFrame.childrenLeft { frame with externalCursor := nib + 1 }
          ∧ it.step = .ok (.again { it with stack := ⟨c, frame.hop + 1, addr, 1, 0⟩
            :: { frame with internalCursor := cursor, externalCursor := nib + 1 } :: below }))
        ∨ frame.childrenLeft = [] ∧ it.step = .ok (.again { it with stack := below })) := by
  have hok := ok.frames frame (by rw [hstack]; exact List.mem_cons_self ..)
  have hdesc (cursor : Nat) := descend_cases ok.addrBits_eq
    (hok.setCursors cursor frame.externalCursor) below
  rw [step, hstack]
  dsimp only
  split
  case isFalse hic =>
    refine Or.inr ⟨valuesFrom_of_exhausted _ _ (by omega), ?_⟩
    rcases hdesc frame.internalCursor with ⟨nib, c, addr, hpush⟩ | hpop
    · exact Or.inl ⟨nib, c, addr, frame.internalCursor, hpush⟩
    · exact Or.inr hpop
  case isTrue hic =>
    rw [shiftAmount_ok (by omega), ok_bind]
    split
    case isFalse hzero =>
      refine Or.inr ⟨valuesFrom_of_shift_zero (by simpa using hzero) _, ?_⟩
      rcases hdesc 16 with ⟨nib, c, addr, hpush⟩ | hpop
      · exact Or.inl ⟨nib, c, addr, 16, hpush⟩
      · exact Or.inr hpop
    case isTrue hne =>
      obtain ⟨v, hv⟩ := hok.shape.nodeOk.fit.exists_value_of_shift (by simpa using hne)
      obtain ⟨-, hlt, -⟩ := hok.shape.nodeOk.valueAt_pos hv
      obtain ⟨pfx, hentry, -, -⟩ := hok.entryAt hv
      rw [checkedAdd_ok (by omega), ok_bind, checkedAdd_ok (by omega), ok_bind, ok.addrBits_eq,
        hentry, ok_bind]
      exact Or.inl ⟨(pfx, v), _, rfl⟩

/-- What is pending after a turn that returns an entry. -/
theorem pending_of_yield {it' : Iter A V} {entry : IpPrefix A × V} (ok : it.Ok)
    (h : it.step = .ok (.yield entry it')) :
    it'.Ok ∧ it.pending = slotEntry entry :: it'.pending := by
  rcases step_ok ok with ⟨hstep, -⟩ | ⟨entry', it'', hstep, ok', -, hp⟩ | ⟨it'', hstep, -, -⟩
  · rw [hstep] at h
    cases h
  · rw [hstep] at h
    cases h
    exact ⟨ok', hp⟩
  · rw [hstep] at h
    cases h

/-- What is pending after a turn that goes round again. -/
theorem pending_of_again {it' : Iter A V} (ok : it.Ok) (h : it.step = .ok (.again it')) :
    it'.Ok ∧ it'.pending = it.pending := by
  rcases step_ok ok with ⟨hstep, -⟩ | ⟨entry, it'', hstep, -, -, -⟩ | ⟨it'', hstep, ok', hp⟩
  · rw [hstep] at h
    cases h
  · rw [hstep] at h
    cases h
  · rw [hstep] at h
    cases h
    exact ⟨ok', hp⟩

/-! ## The whole iteration -/

/-- The turns that an iterator takes before the one that finds its stack empty. -/
def left (it : Iter A V) : Nat := it.pending.length + (it.stack.map IterFrame.visits).sum

theorem left_of_cons (hstack : it.stack = frame :: below) :
    it.left = it.pending.length + (frame.visits + (below.map IterFrame.visits).sum) := by
  rw [left, hstack, List.map_cons, List.sum_cons]

/-- A push takes one of the visits of a frame, and leaves the others to it and to the
    frame of the child. -/
theorem visits_push {nib : Nat} {c : TbNode V} (hok : frame.Ok (IpAddress.bits A))
    (addr : U128) (ic : Nat) (hc : frame.node.childAt nib = some c)
    (hchildren : frame.childrenLeft
      = (nib, c) :: IterFrame.childrenLeft { frame with externalCursor := nib + 1 }) :
    frame.visits = IterFrame.visits ⟨c, frame.hop + 1, addr, 1, 0⟩
      + IterFrame.visits { frame with internalCursor := ic, externalCursor := nib + 1 } + 1 := by
  obtain ⟨-, hpos⟩ := hok.shape.nodeOk.childAt_lt hc
  have hshape : Shape (IpAddress.bits A / 4 - frame.hop - 1) c := by
    refine Shape.child ?_ hc
    rw [Nat.sub_add_cancel hpos]
    exact hok.shape
  have hsize := IterFrame.unvisited_pushed hshape (frame.hop + 1) addr 1
  have hframe : frame.unvisited = c.size
      + IterFrame.unvisited { frame with internalCursor := ic, externalCursor := nib + 1 } := by
    rw [IterFrame.unvisited, hchildren, List.map_cons, List.sum_cons]
    rfl
  rw [IterFrame.visits, IterFrame.visits, IterFrame.visits, hframe]
  omega

/-- **Every turn** lowers what is left by one. -/
theorem step_left (ok : it.Ok) :
    (it.step = .ok .done ∧ it.left = 0)
    ∨ (∃ entry it', it.step = .ok (.yield entry it') ∧ it'.Ok ∧ it.left = it'.left + 1)
    ∨ (∃ it', it.step = .ok (.again it') ∧ it'.Ok ∧ it.left = it'.left + 1) := by
  cases hstack : it.stack with
  | nil =>
      refine Or.inl ⟨by rw [step, hstack]; rfl, ?_⟩
      rw [left, pending, hstack]
      rfl
  | cons frame below =>
      have hok := ok.frames frame (by rw [hstack]; exact List.mem_cons_self ..)
      have hleft := left_of_cons hstack
      rcases step_cases ok hstack with
        ⟨entry, cursor, hstep⟩ | ⟨-, ⟨nib, c, addr, cursor, hc, hchildren, hstep⟩ | ⟨hnone, hstep⟩⟩
      · obtain ⟨ok', hpend⟩ := pending_of_yield ok hstep
        refine Or.inr (Or.inl ⟨entry, _, hstep, ok', ?_⟩)
        rw [hleft, left_of_cons rfl, hpend, List.length_cons]
        change _ = _ + (frame.visits + _) + 1
        omega
      · obtain ⟨ok', hpend⟩ := pending_of_again ok hstep
        refine Or.inr (Or.inr ⟨_, hstep, ok', ?_⟩)
        rw [hleft, left_of_cons rfl, hpend, List.map_cons, List.sum_cons,
          visits_push hok addr cursor hc hchildren]
        omega
      · obtain ⟨ok', hpend⟩ := pending_of_again ok hstep
        refine Or.inr (Or.inr ⟨_, hstep, ok', ?_⟩)
        -- without a child left, the pop is the last visit
        have hvisits : frame.visits = 1 := by
          rw [IterFrame.visits, IterFrame.unvisited, hnone]
          rfl
        rw [hleft, left, hpend, hvisits]
        exact (Nat.add_assoc _ _ 1).trans (congrArg _ (Nat.add_comm _ 1)) |>.symm

/-- `k` turns of the loop, over as many calls of `next` as they reach into: the entries
    these return, and the iterator left, if it is not exhausted. -/
def advance : Nat → Iter A V → M (List (IpPrefix A × V) × Option (Iter A V))
  | 0, it => pure ([], some it)
  | k + 1, it => do
    match ← it.step with
    | .done => pure ([], none)
    | .yield entry it =>
      let (rest, it) ← advance k it
      pure (entry :: rest, it)
    | .again it => advance k it

theorem advance_of_done (h : it.step = .ok .done) (k : Nat) :
    it.advance (k + 1) = .ok ([], none) := by
  rw [advance, h]
  rfl

theorem advance_of_yield {it' : Iter A V} {entry : IpPrefix A × V}
    (h : it.step = .ok (.yield entry it')) {k : Nat} {rest : List (IpPrefix A × V)}
    {last : Option (Iter A V)} (hrest : it'.advance k = .ok (rest, last)) :
    it.advance (k + 1) = .ok (entry :: rest, last) := by
  rw [advance, h]
  change (do let (rest, it) ← it'.advance k; pure (entry :: rest, it)) = _
  rw [hrest]
  rfl

theorem advance_of_again {it' : Iter A V} (h : it.step = .ok (.again it')) (k : Nat) :
    it.advance (k + 1) = it'.advance k := by
  rw [advance, h]
  rfl

theorem collect_of_again {it' : Iter A V} (h : it.step = .ok (.again it')) :
    it.collect = it'.collect := by
  have hnext := next_of_again h
  rw [collect, collect]
  rw [hnext]

/-- **All the turns.**  The iteration is over when what was left is used up, and not
    before. -/
theorem advance_ok {it : Iter A V} (ok : it.Ok) :
    ∃ entries, it.collect = .ok entries ∧ it.advance (it.left + 1) = .ok (entries, none)
      ∧ ∀ k ≤ it.left, ∃ es it', it.advance k = .ok (es, some it') ∧ es <+: entries := by
  induction hleft : it.left generalizing it with
  | zero =>
      rcases step_left ok with ⟨hstep, -⟩ | ⟨entry, it', -, -, heq⟩ | ⟨it', -, -, heq⟩
      · refine ⟨[], collect_of_none (next_of_done hstep), advance_of_done hstep 0, ?_⟩
        intro k hk
        obtain rfl := Nat.le_zero.mp hk
        exact ⟨[], it, rfl, List.prefix_rfl⟩
      · omega
      · omega
  | succ n ih =>
      rcases step_left ok with ⟨-, heq⟩ | ⟨entry, it', hstep, ok', heq⟩ | ⟨it', hstep, ok', heq⟩
      · omega
      · obtain ⟨entries, hcollect, hall, hpart⟩ := ih ok' (by omega)
        refine ⟨entry :: entries, collect_of_some (next_of_yield hstep) hcollect,
          advance_of_yield hstep hall, ?_⟩
        intro k hk
        cases k with
        | zero => exact ⟨[], it, rfl, List.nil_prefix⟩
        | succ k =>
            obtain ⟨es, it'', hrun, hes⟩ := hpart k (Nat.le_of_succ_le_succ hk)
            exact ⟨entry :: es, it'', advance_of_yield hstep hrun,
              (List.prefix_cons_inj entry).mpr hes⟩
      · obtain ⟨entries, hcollect, hall, hpart⟩ := ih ok' (by omega)
        refine ⟨entries, (collect_of_again hstep).trans hcollect,
          (advance_of_again hstep _).trans hall, ?_⟩
        intro k hk
        cases k with
        | zero => exact ⟨[], it, rfl, List.nil_prefix⟩
        | succ k =>
            obtain ⟨es, it'', hrun, hes⟩ := hpart k (Nat.le_of_succ_le_succ hk)
            exact ⟨es, it'', (advance_of_again hstep k).trans hrun, hes⟩

/-! ## One call -/

/-- What every move of the stack keeps, a call of `next` keeps. -/
theorem next_keeps {P : List (IterFrame V) → Prop}
    (hP : ∀ addrBits stack stack', Moves addrBits stack stack' → P stack → P stack')
    {it it' : Iter A V} {found : Option (IpPrefix A × V)} (h : it.next = .ok (found, it'))
    (hp : P it.stack) : P it'.stack := by
  rw [next] at h
  split at h
  case h_1 => cases h
  case h_2 =>
    cases h
    exact hp
  case h_3 hstep =>
    cases h
    exact hP _ _ _ (step_moves hstep rfl) hp
  case h_4 it'' hstep =>
    have hlt := step_cost hstep rfl
    exact next_keeps hP h (hP _ _ _ (step_moves hstep rfl) hp)
termination_by it.cost

theorem calls_keeps {P : List (IterFrame V) → Prop}
    (hP : ∀ addrBits stack stack', Moves addrBits stack stack' → P stack → P stack') {n : Nat}
    {it it' : Iter A V} {found : List (Option (IpPrefix A × V))}
    (h : it.calls n = .ok (found, it')) (hp : P it.stack) : P it'.stack := by
  induction n generalizing it found with
  | zero =>
      cases h
      exact hp
  | succ n ih =>
      simp only [calls, bind_eq_ok, pure_eq_ok, Except.ok.injEq, Prod.mk.injEq] at h
      obtain ⟨⟨first, it₁⟩, hnext, ⟨rest, it₂⟩, hrest, -, rfl⟩ := h
      exact ih hrest (next_keeps hP hnext hp)

/-- Every frame of the stack holds a pruned node. -/
def Pruned (levels : Nat) (stack : List (IterFrame V)) : Prop :=
  ∀ frame ∈ stack, Tight (levels - frame.hop) frame.node

theorem Moves.pruned {levels addrBits : Nat} {stack stack' : List (IterFrame V)}
    (h : Moves addrBits stack stack') (hp : Pruned levels stack) : Pruned levels stack' := by
  cases h with
  | pop frame => exact (List.forall_mem_cons.mp hp).2
  | scan frame below hic hcursor => exact List.forall_mem_cons.mpr (List.forall_mem_cons.mp hp)
  | @push frame below cursor nib child hic hec hnib hchild =>
      obtain ⟨ht, hbelow⟩ := List.forall_mem_cons.mp hp
      refine List.forall_mem_cons.mpr ⟨?_, List.forall_mem_cons.mpr ⟨ht, hbelow⟩⟩
      rw [childFrame_hop hchild]
      obtain ⟨hop, addr, node, -, hmem, rfl⟩ := childFrame_eq_ok hchild
      -- below the last level nothing is asked of the node
      cases hlevel : levels - frame.hop with
      | zero =>
          rw [show levels - (frame.hop + 1) = 0 by omega]
          exact trivial
      | succ h =>
          rw [hlevel] at ht
          rw [show levels - (frame.hop + 1) = h by omega]
          exact (ht node hmem).2

/-- A node that is not empty has an entry or a child in its frame when this is pushed. -/
theorem not_exhausted {h : Nat} {path : List Nat} (hs : Shape h frame.node)
    (hne : frame.node.isEmpty = false) (hec : frame.externalCursor = 0)
    (hvalues : frame.node.valuesFrom path 1 = []) : frame.childrenLeft ≠ [] := by
  intro hchildren
  rcases hs.nodeOk.exists_of_not_isEmpty hne with ⟨q, v, hv⟩ | ⟨nib, c, hc⟩
  · obtain ⟨hpos, hlt, -⟩ := hs.nodeOk.valueAt_pos hv
    have hmem : ((path, q), v) ∈ frame.node.valuesFrom path 1 :=
      mem_valuesFrom.mpr ⟨rfl, hpos, hlt, hv⟩
    rw [hvalues] at hmem
    cases hmem
  · have hmem : (nib, c) ∈ frame.childrenLeft :=
      RankVec.mem_assoc.mpr ⟨by omega, (hs.nodeOk.childAt_lt hc).1, hc⟩
    rw [hchildren] at hmem
    cases hmem

/-- **On the way down.**  From a frame just pushed, whose node is not empty, the loop
    gets to an entry with one turn for each level below. -/
theorem turns_down {h : Nat} {it : Iter A V} {frame : IterFrame V} {below : List (IterFrame V)}
    (ok : it.Ok) (hstack : it.stack = frame :: below) (hp : Pruned (levels A) it.stack)
    (hic : frame.internalCursor = 1) (hec : frame.externalCursor = 0)
    (hne : frame.node.isEmpty = false) (hlevel : levels A - frame.hop = h) :
    ∃ k ≤ h + 1, ∃ entry it', it.turns k = .ok (.yield entry it') := by
  induction h using Nat.strongRecOn generalizing it frame below with
  | ind h ih =>
      have hok := ok.frames frame (by rw [hstack]; exact List.mem_cons_self ..)
      have ht := hp frame (by rw [hstack]; exact List.mem_cons_self ..)
      rcases step_cases ok hstack with ⟨entry, cursor, hstep⟩
        | ⟨hvalues, ⟨nib, c, addr, cursor, hc, -, hstep⟩ | ⟨hnone, -⟩⟩
      · exact ⟨1, by omega, entry, _, turns_of_yield hstep 0⟩
      · -- the child is not empty either
        obtain ⟨-, hpos⟩ := hok.shape.nodeOk.childAt_lt hc
        have hsucc : levels A - frame.hop = levels A - (frame.hop + 1) + 1 := by
          rw [levels]
          omega
        rw [hsucc] at ht
        obtain ⟨ok', -⟩ := pending_of_again ok hstep
        have hp' := (step_moves hstep rfl).pruned hp
        obtain ⟨k, hk, entry, it', hturns⟩ := ih (levels A - (frame.hop + 1)) (by omega) ok' rfl
          hp' rfl rfl (ht.child hc).1 rfl
        exact ⟨k + 1, by omega, entry, it', by rw [turns_of_again hstep, hturns]⟩
      · rw [hic] at hvalues
        exact absurd hnone (not_exhausted hok.shape hne hec hvalues)

/-- How the loop of a call ends. -/
def Ends (it : Iter A V) (k : Nat) : Prop :=
  (∃ it', it.turns k = .ok .done ∧ it.next = .ok (none, it'))
  ∨ ∃ entry it', it.turns k = .ok (.yield entry it') ∧ it.next = .ok (some entry, it')

theorem ends_of_again {it' : Iter A V} (h : it.step = .ok (.again it')) {k : Nat}
    (hend : it'.Ends k) : it.Ends (k + 1) := by
  rw [Ends, turns_of_again h, next_of_again h]
  exact hend

/-- The loop ends where its turns do. -/
theorem ends_of_yield {it : Iter A V} (ok : it.Ok) {k : Nat} {entry : IpPrefix A × V}
    {it' : Iter A V} (h : it.turns k = .ok (.yield entry it')) : it.Ends k := by
  induction k generalizing it with
  | zero => cases h
  | succ k ih =>
      rcases step_ok ok with ⟨hstep, -⟩ | ⟨entry', it'', hstep, -⟩ | ⟨it'', hstep, ok', -⟩
      · rw [turns_of_done hstep] at h
        cases h
      · exact Or.inr ⟨entry', it'', turns_of_yield hstep k, next_of_yield hstep⟩
      · rw [turns_of_again hstep] at h
        exact ends_of_again hstep (ih ok' h)

/-- **Up and down.**  The loop pops frames until one has an entry or a child left, and
    from a child it goes down. -/
theorem ends_within {it : Iter A V} (ok : it.Ok) (hs : Stacked it.stack)
    (hp : Pruned (levels A) it.stack) : ∃ k ≤ levels A + it.stack.length, it.Ends k := by
  have hlevels : 1 ≤ levels A := by
    rcases IpAddress.bits_eq (A := A) with h | h <;> (rw [levels, h]; decide)
  induction hstack : it.stack generalizing it with
  | nil =>
      have hstep : it.step = .ok .done := by
        rw [step, hstack]
        rfl
      exact ⟨1, by omega, Or.inl ⟨it, turns_of_done hstep 0, next_of_done hstep⟩⟩
  | cons frame below ih =>
      have hok := ok.frames frame (by rw [hstack]; exact List.mem_cons_self ..)
      rcases step_cases ok hstack with ⟨entry, cursor, hstep⟩
        | ⟨-, ⟨nib, c, addr, cursor, hc, -, hstep⟩ | ⟨-, hstep⟩⟩
      · refine ⟨1, by omega, Or.inr ⟨entry, _, turns_of_yield hstep 0, next_of_yield hstep⟩⟩
      · obtain ⟨-, hpos⟩ := hok.shape.nodeOk.childAt_lt hc
        have ht := hp frame (by rw [hstack]; exact List.mem_cons_self ..)
        have hsucc : levels A - frame.hop = levels A - (frame.hop + 1) + 1 := by
          rw [levels]
          omega
        rw [hsucc] at ht
        obtain ⟨ok', -⟩ := pending_of_again ok hstep
        have hp' := (step_moves hstep rfl).pruned hp
        obtain ⟨k, hk, entry, it', hturns⟩ :=
          turns_down (h := levels A - (frame.hop + 1)) ok' rfl hp' rfl rfl (ht.child hc).1 rfl
        refine ⟨k + 1, ?_, ends_of_again hstep (ends_of_yield ok' hturns)⟩
        rw [List.length_cons]
        omega
      · obtain ⟨ok', -⟩ := pending_of_again ok hstep
        have hmoves := step_moves hstep rfl
        obtain ⟨k, hk, hend⟩ := ih ok' (hmoves.stacked hs) (hmoves.pruned hp) rfl
        exact ⟨k + 1, by rw [List.length_cons]; omega, ends_of_again hstep hend⟩

end Iter

/-! ## After every run -/

/-- **An iteration is linear.**  After every run, exhausting an iterator takes one turn
    for each entry and two for each node, no more and no less, and the turns before
    that return a first part of the entries. -/
theorem iter_turns (calls : List (Call A V)) :
    ∃ t replies entries, runCalls calls = .ok (t, replies)
      ∧ t.iter.collect = .ok entries
      ∧ t.iter.advance (t.len + 2 * t.root.size) = .ok (entries, none)
      ∧ ∀ k < t.len + 2 * t.root.size, ∃ es it,
          t.iter.advance k = .ok (es, some it) ∧ es <+: entries := by
  obtain ⟨t, replies, m, hrun, h, -, -⟩ := run_live calls
  obtain ⟨ok, hpend⟩ := RouteMap.iter_ok h.shape
  obtain ⟨entries, hcollect, hall, hpart⟩ := Iter.advance_ok ok
  have hleft : t.iter.left + 1 = t.len + 2 * t.root.size := by
    have hsize := IterFrame.unvisited_pushed h.shape 0 0 1
    have hvisits : (t.iter.stack.map IterFrame.visits).sum = 2 * t.root.size - 1 := by
      rw [RouteMap.iter, List.map_singleton, List.sum_singleton, IterFrame.visits]
      omega
    obtain ⟨es, -, hlist, hones, -⟩ := h.collect
    have hlen : t.len = t.root.ones := by
      rw [RouteMap.len, h.count_eq, ← hlist.length_eq, hones]
    rw [Iter.left, hpend, h.shape.length_entries, hvisits, hlen]
    omega
  rw [hleft] at hall
  exact ⟨t, replies, entries, hrun, hcollect, hall, fun k hk => hpart k (by omega)⟩

/-- **A call is quick.**  After every run, and after any number of calls of `next`, the
    loop of the next call ends after at most one turn for each level up, one for each
    level down and the one that returns. -/
theorem next_turns (calls : List (Call A V)) (n : Nat) :
    ∃ t replies it found, runCalls calls = .ok (t, replies)
      ∧ t.iter.calls n = .ok (found, it)
      ∧ ∃ k ≤ 2 * (IpAddress.bits A / STRIDE) + 1, it.Ends k := by
  obtain ⟨t, replies, m, hrun, h, -, -⟩ := run_live calls
  obtain ⟨ok, hpend⟩ := RouteMap.iter_ok h.shape
  have hstacked : Iter.Stacked t.iter.stack := ⟨rfl, trivial⟩
  have hpruned : Iter.Pruned (levels A) t.iter.stack := by
    intro frame hframe
    rw [List.mem_singleton.mp hframe]
    exact h.tight
  obtain ⟨es, -, hcalls⟩ := Iter.calls_ok ok hstacked hpend
  obtain ⟨it, hit, ok', hs'⟩ := hcalls n
  have hp' := Iter.calls_keeps (P := Iter.Pruned (levels A)) (fun _ _ _ hm => hm.pruned) hit hpruned
  obtain ⟨k, hk, hend⟩ := Iter.ends_within ok' hs' hp'
  have hlen := ok'.length_le hs'
  refine ⟨t, replies, it, _, hrun, hit, k, ?_, hend⟩
  rw [iterCapacity] at hlen
  rw [levels, STRIDE] at *
  omega

end Routemap
