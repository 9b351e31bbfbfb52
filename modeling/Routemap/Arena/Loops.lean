/-
  Routemap.Arena.Loops

  What the loops of the arena do to the pool, with the bits of the prefix as the
  path to go.

  `InsertRun` and `RemoveRun` are the runs of the two loops that write: a
  constructor for each way an iteration can go, with all it reads and writes.
  The loops return exactly such runs, so what holds of a loop is shown by
  induction on the run.  The loops that only read are equal to walks.
-/
import Routemap.Arena.Pool
import Routemap.Lib.LastSome

namespace Routemap

open Walk Network

variable {V : Type} {nodes nodes' : List (ArenaNode V)} {addr : U128} {bits depth left cur : Nat}
  {path : List (Fin 2)}

/-! ## The loop of `insert` -/

/-- A run of the loop of `insert` from node `cur`, with `path` to go: the nodes
    after it, and the node it ends at. -/
inductive InsertRun : List (ArenaNode V) → Nat → List (Fin 2) → List (ArenaNode V) → Nat →
    Prop where
  | done (nodes : List (ArenaNode V)) (cur : Nat) : InsertRun nodes cur [] nodes cur
  | follow {nodes nodes' : List (ArenaNode V)} {cur cur' child : Nat} {bit : Fin 2}
      {path : List (Fin 2)} (hedge : edge nodes cur bit = some child)
      (hrest : InsertRun nodes child path nodes' cur') :
      InsertRun nodes cur (bit :: path) nodes' cur'
  | push {nodes nodes' : List (ArenaNode V)} {cur cur' : Nat} {node : ArenaNode V} {bit : Fin 2}
      {path : List (Fin 2)} (hget : nodes[cur]? = some node) (hfree : edge nodes cur bit = none)
      (hrest : InsertRun (pushAt nodes cur node bit) (nodes.length % 2 ^ 32) path nodes' cur') :
      InsertRun nodes cur (bit :: path) nodes' cur'

theorem InsertRun.exists_of_inBounds (hb : InBounds nodes) (hcur : cur < nodes.length)
    (path : List (Fin 2)) : ∃ nodes' cur', InsertRun nodes cur path nodes' cur' := by
  induction path generalizing nodes cur with
  | nil => exact ⟨nodes, cur, .done nodes cur⟩
  | cons bit path ih =>
      have hget := List.getElem?_eq_getElem hcur
      cases hedge : edge nodes cur bit with
      | some child =>
          obtain ⟨nodes', cur', hrest⟩ := ih hb (hb.edge_lt _ _ _ hedge)
          exact ⟨nodes', cur', .follow hedge hrest⟩
      | none =>
          obtain ⟨nodes', cur', hrest⟩ := ih (hb.pushAt hget) (cast_lt_pushAt nodes)
          exact ⟨nodes', cur', .push hget hedge hrest⟩

theorem InsertRun.inBounds {cur' : Nat} (h : InsertRun nodes cur path nodes' cur')
    (hb : InBounds nodes) (hcur : cur < nodes.length) :
    InBounds nodes' ∧ cur' < nodes'.length := by
  induction h with
  | done => exact ⟨hb, hcur⟩
  | follow hedge _ ih => exact ih hb (hb.edge_lt _ _ _ hedge)
  | push hget _ _ ih => exact ih (hb.pushAt hget) (cast_lt_pushAt _)

theorem InsertRun.length_le {cur' : Nat} (h : InsertRun nodes cur path nodes' cur') :
    nodes.length ≤ nodes'.length := by
  induction h with
  | done => exact Nat.le_refl _
  | follow _ _ ih => exact ih
  | push _ _ _ ih =>
      rw [length_pushAt] at ih
      omega

/-- A run that pushes ends with more nodes. -/
theorem InsertRun.length_lt {node : ArenaNode V} {bit : Fin 2} {next cur' : Nat}
    (h : InsertRun (pushAt nodes cur node bit) next path nodes' cur') :
    nodes.length < nodes'.length := by
  have hle := h.length_le
  rw [length_pushAt] at hle
  exact hle

/-- `insertLoop`, with a note of each node pushed: its position, and the index that
    was linked for it. -/
def insertTrace (addr : U128) (addrBits : Nat) : Nat → Nat → List (ArenaNode V) → Nat →
    M (List (ArenaNode V) × Nat × List (Nat × Nat))
  | 0, _, nodes, cur => pure (nodes, cur, [])
  | left + 1, depth, nodes, cur => do
    let bit ← bitAt addr addrBits depth
    let childIdx := (← vecGet nodes cur).children bit
    if childIdx == NULL then
      let position := nodes.length
      let newIdx := nodes.length % 2 ^ 32
      let nodes := nodes ++ [ArenaNode.new]
      let node ← vecGet nodes cur
      let nodes ← vecSet nodes cur (node.setChild bit newIdx)
      let (nodes, cur, links) ← insertTrace addr addrBits left (depth + 1) nodes newIdx
      pure (nodes, cur, (position, newIdx) :: links)
    else insertTrace addr addrBits left (depth + 1) nodes childIdx

/-- The notes change nothing. -/
theorem insertTrace_erase (addr : U128) (bits left depth : Nat) (nodes : List (ArenaNode V))
    (cur : Nat) :
    insertLoop addr bits left depth nodes cur = (do
      let (nodes, cur, _) ← insertTrace addr bits left depth nodes cur
      pure (nodes, cur)) := by
  induction left generalizing depth nodes cur with
  | zero => rfl
  | succ left ih =>
      rw [insertLoop, insertTrace, bind_assoc]
      refine bind_congr fun bit => ?_
      rw [bind_assoc]
      refine bind_congr fun node => ?_
      dsimp only
      split
      case isFalse => exact ih ..
      case isTrue =>
        rw [bind_assoc]
        refine bind_congr fun parent => ?_
        rw [bind_assoc]
        refine bind_congr fun pushed => ?_
        rw [ih, bind_assoc]
        rfl

/-- The positions from `lo` up to `hi`, each with what the cast makes of it. -/
def casts (lo hi : Nat) : List (Nat × Nat) :=
  (List.range' lo (hi - lo)).map fun position => (position, position % 2 ^ 32)

theorem casts_self (n : Nat) : casts n n = [] := by
  rw [casts, Nat.sub_self]
  rfl

theorem casts_cons {lo hi : Nat} (h : lo < hi) :
    casts lo hi = (lo, lo % 2 ^ 32) :: casts (lo + 1) hi := by
  rw [casts, casts, show hi - lo = hi - (lo + 1) + 1 by omega, List.range'_succ, List.map_cons]

/-- The links of a run are to the positions the `Vec` grew by. -/
theorem InsertRun.trace {cur' : Nat} (hbits : bits ≤ 128) (hdepth : depth + left ≤ bits)
    (h : InsertRun nodes cur (bitsFrom bits addr.toNat depth left) nodes' cur') :
    insertTrace addr bits left depth nodes cur
      = .ok (nodes', cur', casts nodes.length nodes'.length) := by
  induction left generalizing depth nodes cur with
  | zero =>
      rw [bitsFrom_zero] at h
      cases h
      rw [casts_self]
      rfl
  | succ left ih =>
      rw [bitsFrom_succ] at h
      rw [insertTrace, bitAt_ok hbits (by omega), ok_bind]
      cases h with
      | follow hedge hrest =>
          obtain ⟨node, hget, hnull, rfl⟩ := exists_of_edge hedge
          rw [vecGet_ok hget, ok_bind, if_neg hnull]
          exact ih (by omega) hrest
      | push hget hfree hrest =>
          obtain ⟨hcur, -⟩ := List.getElem?_eq_some_iff.mp hget
          have hih := ih (by omega) hrest
          rw [length_pushAt] at hih
          rw [vecGet_ok hget, ok_bind, if_pos (null_of_edge hget hfree)]
          dsimp only
          rw [vecGet_ok (getElem?_push_of_get hget), ok_bind, vecSet_ok (by simp; omega), ok_bind]
          refine (congrArg (fun x => x >>= _) hih).trans ?_
          rw [casts_cons hrest.length_lt]
          rfl

/-- The loop of `insert` returns its run. -/
theorem InsertRun.loop {cur' : Nat} (hbits : bits ≤ 128) (hdepth : depth + left ≤ bits)
    (h : InsertRun nodes cur (bitsFrom bits addr.toNat depth left) nodes' cur') :
    insertLoop addr bits left depth nodes cur = .ok (nodes', cur') := by
  rw [insertTrace_erase, h.trace hbits hdepth]
  rfl

/-! ## `remove_recursive` -/

/-- A run of `remove_recursive` from node `cur`, with `path` to go: the nodes after
    it, the value it took, and whether it found node `cur` empty. -/
inductive RemoveRun : List (ArenaNode V) → Nat → List (Fin 2) → List (ArenaNode V) → Option V →
    Bool → Prop where
  | clear {nodes : List (ArenaNode V)} {cur : Nat} {node : ArenaNode V}
      (hget : nodes[cur]? = some node) :
      RemoveRun nodes cur [] (nodes.set cur { node with value := none }) node.value node.noChild
  | absent {nodes : List (ArenaNode V)} {cur : Nat} {bit : Fin 2} {path : List (Fin 2)}
      (hcur : cur < nodes.length) (hfree : edge nodes cur bit = none) :
      RemoveRun nodes cur (bit :: path) nodes none false
  | keep {nodes nodes' : List (ArenaNode V)} {cur child : Nat} {node : ArenaNode V} {bit : Fin 2}
      {path : List (Fin 2)} {value : Option V} (hedge : edge nodes cur bit = some child)
      (hrest : RemoveRun nodes child path nodes' value false) (hget : nodes'[cur]? = some node) :
      RemoveRun nodes cur (bit :: path) nodes' value (node.value.isNone && node.noChild)
  | unlink {nodes nodes' : List (ArenaNode V)} {cur child : Nat} {node : ArenaNode V} {bit : Fin 2}
      {path : List (Fin 2)} {value : Option V} (hedge : edge nodes cur bit = some child)
      (hrest : RemoveRun nodes child path nodes' value true) (hget : nodes'[cur]? = some node) :
      RemoveRun nodes cur (bit :: path) (nodes'.set cur (node.setChild bit NULL)) value
        ((node.setChild bit NULL).value.isNone && (node.setChild bit NULL).noChild)

variable {value : Option V} {empty : Bool}

theorem RemoveRun.length_eq (h : RemoveRun nodes cur path nodes' value empty) :
    nodes'.length = nodes.length := by
  induction h with
  | clear => exact List.length_set
  | absent => rfl
  | keep _ _ _ ih => exact ih
  | unlink _ _ _ ih => rw [List.length_set, ih]

/-- Removing only cuts edges. -/
theorem RemoveRun.edge_sub (h : RemoveRun nodes cur path nodes' value empty) (i : Nat) (bit : Fin 2)
    (j : Nat) (hedge : edge nodes' i bit = some j) : edge nodes i bit = some j := by
  induction h with
  | clear hget => rwa [edge_setValue hget] at hedge
  | absent => exact hedge
  | keep _ _ _ ih => exact ih hedge
  | unlink _ _ hget ih =>
      rw [edge_setChild hget, link_null] at hedge
      exact ih (unlink_sub i bit j hedge)

theorem RemoveRun.inBounds (h : RemoveRun nodes cur path nodes' value empty)
    (hb : InBounds nodes) : InBounds nodes' where
  nonempty := by
    rw [h.length_eq]
    exact hb.nonempty
  edge_lt i bit j hedge := by
    rw [h.length_eq]
    exact hb.edge_lt i bit j (h.edge_sub i bit j hedge)

theorem RemoveRun.exists_of_inBounds (hb : InBounds nodes) (hcur : cur < nodes.length)
    (path : List (Fin 2)) : ∃ nodes' value empty, RemoveRun nodes cur path nodes' value empty := by
  induction path generalizing cur with
  | nil => exact ⟨_, _, _, .clear (List.getElem?_eq_getElem hcur)⟩
  | cons bit path ih =>
      cases hedge : edge nodes cur bit with
      | none => exact ⟨nodes, none, false, .absent hcur hedge⟩
      | some child =>
          obtain ⟨nodes', value, prune, hrest⟩ := ih (hb.edge_lt _ _ _ hedge)
          have hcur' : cur < nodes'.length := by rw [hrest.length_eq]; exact hcur
          have hget := List.getElem?_eq_getElem hcur'
          cases prune with
          | false => exact ⟨_, _, _, .keep hedge hrest hget⟩
          | true => exact ⟨_, _, _, .unlink hedge hrest hget⟩

/-- `remove_recursive` returns its run. -/
theorem RemoveRun.loop (hbits : bits ≤ 128) (hdepth : depth + left ≤ bits)
    (h : RemoveRun nodes cur (bitsFrom bits addr.toNat depth left) nodes' value empty) :
    removeRecursive addr bits left depth nodes cur = .ok (nodes', value, empty) := by
  induction left generalizing depth cur nodes' value empty with
  | zero =>
      rw [bitsFrom_zero] at h
      cases h with
      | clear hget =>
          obtain ⟨hcur, -⟩ := List.getElem?_eq_some_iff.mp hget
          rw [removeRecursive, vecGet_ok hget, ok_bind, vecSet_ok hcur, ok_bind,
            vecGet_ok (List.getElem?_set_self hcur), ok_bind]
          rfl
  | succ left ih =>
      rw [bitsFrom_succ] at h
      rw [removeRecursive, bitAt_ok hbits (by omega), ok_bind]
      cases h with
      | absent hcur hfree =>
          have hget := List.getElem?_eq_getElem hcur
          rw [vecGet_ok hget, ok_bind, if_pos (null_of_edge hget hfree)]
          rfl
      | keep hedge hrest hget' =>
          obtain ⟨node, hget, hnull, rfl⟩ := exists_of_edge hedge
          rw [vecGet_ok hget, ok_bind, if_neg hnull, checkedAdd_ok (by omega),
            ok_bind, ih (by omega) hrest]
          change (vecGet nodes' cur >>= _) = _
          rw [vecGet_ok hget']
          rfl
      | unlink hedge hrest hget' =>
          obtain ⟨node, hget, hnull, rfl⟩ := exists_of_edge hedge
          obtain ⟨hcur', -⟩ := List.getElem?_eq_some_iff.mp hget'
          rw [vecGet_ok hget, ok_bind, if_neg hnull, checkedAdd_ok (by omega),
            ok_bind, ih (by omega) hrest]
          change (Routemap.unlink _ cur _ >>= _) = _
          rw [unlink_ok hget', ok_bind]
          change (vecGet _ cur >>= _) = _
          rw [vecGet_ok (List.getElem?_set_self hcur')]
          rfl

/-! ## The loops that read -/

/-- `contains` reads whether there is a value at the end of the path. -/
theorem containsLoop_ok (addr : U128) (hb : InBounds nodes) (hcur : cur < nodes.length)
    (hbits : bits ≤ 128) (hdepth : depth + left ≤ bits) :
    containsLoop addr bits nodes left depth cur
      = .ok ((walk (edge nodes) cur (bitsFrom bits addr.toNat depth left)).bind
          (valueOf nodes)).isSome := by
  induction left generalizing depth cur with
  | zero =>
      have hget := List.getElem?_eq_getElem hcur
      rw [containsLoop, vecGet_ok hget, ok_bind, pure_eq_ok, bitsFrom_zero, walk, Option.bind_some,
        valueOf_of_get hget]
  | succ left ih =>
      rw [containsLoop, bitAt_ok hbits (by omega), ok_bind, bitsFrom_succ, walk]
      cases hedge : edge nodes cur (bitOf bits addr.toNat depth) with
      | none =>
          have hget := List.getElem?_eq_getElem hcur
          rw [vecGet_ok hget, ok_bind, if_pos (null_of_edge hget hedge)]
          rfl
      | some child =>
          obtain ⟨node, hget, hnull, rfl⟩ := exists_of_edge hedge
          rw [vecGet_ok hget, ok_bind, if_neg hnull]
          exact ih (hb.edge_lt _ _ _ hedge) (by omega)

/-- The values met on the way down, by the number of bits taken. -/
def valueOfBits (nodes : List (ArenaNode V)) (bits a depth cur k : Nat) : Option V :=
  (walk (edge nodes) cur (bitsFrom bits a depth k)).bind (valueOf nodes)

theorem valueOfBits_zero {node : ArenaNode V} (hget : nodes[cur]? = some node) (a : Nat) :
    valueOfBits nodes bits a depth cur 0 = node.value :=
  valueOf_of_get hget

theorem valueOfBits_succ (nodes : List (ArenaNode V)) (bits a depth cur k : Nat) :
    valueOfBits nodes bits a depth cur (k + 1)
      = (edge nodes cur (bitOf bits a depth)).bind fun j =>
          valueOfBits nodes bits a (depth + 1) j k := by
  rw [valueOfBits, bitsFrom_succ, walk]
  cases edge nodes cur (bitOf bits a depth) <;> rfl

/-- `longest_match` keeps the last value met on the way down. -/
theorem matchLoop_ok (addr : U128) (hb : InBounds nodes) (hcur : cur < nodes.length)
    (hbits : bits ≤ 128) (hdepth : depth + left ≤ bits) (best : Option V) :
    matchLoop addr bits nodes left depth cur best
      = .ok (((LastSome.lastSome (fun k => valueOfBits nodes bits addr.toNat depth cur (k + 1))
          left).map Prod.snd).or best) := by
  induction left generalizing depth cur best with
  | zero => rfl
  | succ left ih =>
      rw [matchLoop, bitAt_ok hbits (by omega), ok_bind]
      cases hedge : edge nodes cur (bitOf bits addr.toNat depth) with
      | none =>
          -- the loop breaks: longer paths are not there either
          have hget := List.getElem?_eq_getElem hcur
          have hnone : LastSome.lastSome
              (fun k => valueOfBits nodes bits addr.toNat depth cur (k + 1)) (left + 1) = none := by
            rw [LastSome.lastSome_eq_none]
            intro k _
            rw [valueOfBits_succ, hedge, Option.bind_none]
          rw [vecGet_ok hget, ok_bind, if_pos (null_of_edge hget hedge), hnone]
          rfl
      | some child =>
          obtain ⟨node, hget, hnull, rfl⟩ := exists_of_edge hedge
          have hchild := hb.edge_lt _ _ _ hedge
          have hgetc := List.getElem?_eq_getElem hchild
          have hstep : ∀ k, valueOfBits nodes bits addr.toNat depth cur (k + 1)
              = valueOfBits nodes bits addr.toNat (depth + 1)
                  (node.children (bitOf bits addr.toNat depth)) k := by
            intro k
            rw [valueOfBits_succ, hedge, Option.bind_some]
          rw [vecGet_ok hget, ok_bind, if_neg hnull, vecGet_ok hgetc, ok_bind,
            ih hchild (by omega), LastSome.lastSome_congr fun k _ => hstep k,
            LastSome.map_snd_lastSome, valueOfBits_zero hgetc, Option.or_assoc]

end Routemap
