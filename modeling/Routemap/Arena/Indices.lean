/-
  Routemap.Arena.Indices

  When the indices of the arena run out.  `insert` casts `nodes.len()` to `u32`
  for the index of the node it pushes, and `u32::MAX` stands for no child; the
  `Vec` never gets shorter, so a table of one prefix gets there by inserting and
  removing it.

  `insertTrace` is the loop of `insert` with a note of each link it writes.
-/
import Routemap.Arena.Runs

namespace Routemap

open Walk

section Loop

variable {V : Type} {nodes nodes' : List (ArenaNode V)} {cur cur' : Nat} {path : List (Fin 2)}

/-- The casts are the positions, and none is `NULL`, up to where `NULL` comes. -/
theorem casts_sound_iff {lo hi : Nat} (hlo : lo ≤ NULL) (hle : lo ≤ hi) :
    (∀ link ∈ casts lo hi, link.2 = link.1 ∧ link.2 ≠ NULL) ↔ hi ≤ NULL := by
  refine ⟨?_, ?_⟩
  · intro h
    by_contra hgt
    have hmem : (NULL, NULL % 2 ^ 32) ∈ casts lo hi := by
      refine List.mem_map_of_mem (List.mem_range'_1.mpr ⟨hlo, ?_⟩)
      omega
    exact (h _ hmem).2 rfl
  · intro hhi link hlink
    obtain ⟨position, hposition, rfl⟩ := List.mem_map.mp hlink
    have hlt := List.mem_range'_1.mp hposition
    have hcast : position % 2 ^ 32 = position := by
      rw [NULL] at hhi
      omega
    refine ⟨hcast, ?_⟩
    dsimp only
    omega

/-- How many nodes of a path are missing below node `cur`. -/
def missing (nodes : List (ArenaNode V)) : Nat → List (Fin 2) → Nat
  | _, [] => 0
  | cur, bit :: path =>
    match edge nodes cur bit with
    | some child => missing nodes child path
    | none => path.length + 1

theorem missing_of_no_edge (hno : ∀ bit, edge nodes cur bit = none) (path : List (Fin 2)) :
    missing nodes cur path = path.length := by
  cases path with
  | nil => rfl
  | cons bit path =>
      rw [missing, hno]
      rfl

/-- Indices last through a run exactly when there is room for the missing nodes. -/
theorem InsertRun.length_le_iff (h : InsertRun nodes cur path nodes' cur')
    (hlen : nodes.length ≤ NULL) :
    nodes'.length ≤ NULL ↔ nodes.length + missing nodes cur path ≤ NULL := by
  induction h with
  | done => rfl
  | follow hedge _ ih => rw [ih hlen, missing, hedge]
  | push hget hfree hrest ih =>
      rw [missing, hfree]
      dsimp only
      rcases Nat.lt_or_eq_of_le hlen with hlt | heq
      · -- the loop goes on at the pushed node, below which the whole path is missing
        rw [ih (by rw [length_pushAt]; omega), length_pushAt,
          missing_of_no_edge (edge_pushAt_new hget hlt)]
        omega
      · have hgt := hrest.length_lt
        omega

end Loop

/-! ## Calls -/

variable {A V : Type} [IpAddress A]

namespace ArenaTable

/-- The links `insert` writes: the position of the node pushed, and the index. -/
def links (t : ArenaTable A V) (pfx : IpPrefix A) : M (List (Nat × Nat)) := do
  let pfx := IpAddress.masked pfx
  let addr := IpAddress.toU128 (IpAddress.ip pfx)
  let (_, _, links) ← insertTrace addr (IpAddress.bits A) (IpAddress.mask pfx) 0 t.nodes 0
  pure links

/-- What is expected of an `insert`: each index it links is the position of the node
    it has pushed and is not `NULL`, and the prefix is contained afterwards. -/
def LinksPositions (t : ArenaTable A V) (pfx : IpPrefix A) (value : V) : Prop :=
  ∃ links t', t.links pfx = .ok links ∧ t.insert pfx value = .ok t'
    ∧ (∀ link ∈ links, link.2 = link.1 ∧ link.2 ≠ NULL) ∧ t'.contains pfx = .ok true

/-- There are indices for the nodes that are missing on the path of the prefix. -/
def HasRoom (t : ArenaTable A V) (pfx : IpPrefix A) : Prop :=
  t.nodes.length + missing t.nodes 0 (network pfx).bitPath ≤ NULL

variable {t : ArenaTable A V} {m : Fib (IpAddress.bits A) V}

theorem links_eq {nodes : List (ArenaNode V)} {cur : Nat} (pfx : IpPrefix A)
    (h : InsertRun t.nodes 0 (network pfx).bitPath nodes cur) :
    t.links pfx = .ok (casts t.nodes.length nodes.length) :=
  congrArg (fun x => x >>= _) (h.trace (bits_le A) (depth_le pfx))

/-- **One `insert`** into an arena that holds `m` links positions, and its prefix is
    contained afterwards, exactly when there is room. -/
theorem linksPositions_iff (hm : t.Represents m) (hlen : t.nodes.length ≤ NULL) (pfx : IpPrefix A)
    (value : V) : t.LinksPositions pfx value ↔ t.HasRoom pfx := by
  have hb := hm.inBounds
  obtain ⟨nodes, cur, node, hrun, hget, hinsert⟩ := insert_run hb pfx value
  rw [HasRoom, ← hrun.length_le_iff hlen, ← casts_sound_iff hlen hrun.length_le]
  refine ⟨?_, ?_⟩
  · rintro ⟨links, t', hlinks, -, hsound, -⟩
    cases (links_eq pfx hrun).symm.trans hlinks
    exact hsound
  · intro hsound
    refine ⟨_, _, links_eq pfx hrun, hinsert, hsound, ?_⟩
    obtain ⟨t', hinsert', hb', -, hrep⟩ := insert_ok (m := m) hb pfx value
    cases hinsert.symm.trans hinsert'
    rw [casts_sound_iff hlen hrun.length_le, ← List.length_set] at hsound
    rw [contains_eq hb', (hrep hm hsound).find_eq, Function.update_self]
    rfl

/-- Indices last through one `insert` exactly when there is room. -/
theorem Step.length_le_iff {t' : ArenaTable A V} {pfx : IpPrefix A} {value : V}
    {reply : Reply A V} (h : t.Step (.insert pfx value) t' reply) (hlen : t.nodes.length ≤ NULL) :
    t'.nodes.length ≤ NULL ↔ t.HasRoom pfx := by
  cases h with
  | insert hrun hget =>
      rw [List.length_set]
      exact hrun.length_le_iff hlen

theorem Step.length_le {t' : ArenaTable A V} {op : Op A V} {reply : Reply A V}
    (h : t.Step op t' reply) (hlen : t.nodes.length ≤ NULL)
    (hroom : ∀ pfx value, op = .insert pfx value → t.HasRoom pfx) : t'.nodes.length ≤ NULL := by
  cases h with
  | insert hrun hget =>
      exact (Step.length_le_iff (.insert hrun hget) hlen).mpr (hroom _ _ rfl)
  | remove hrun =>
      rw [hrun.length_eq]
      exact hlen
  | contains => exact hlen
  | longestMatch => exact hlen

end ArenaTable

/-! ## Runs -/

/-- `P` holds of the `insert` that is call `i` of a run, if it is one: of the arena
    the calls before it end in, and its arguments. -/
def AtInsert (P : ArenaTable A V → IpPrefix A → V → Prop) (ops : List (Op A V)) (i : Nat) : Prop :=
  ∀ pfx value, ops[i]? = some (.insert pfx value) →
    ∃ t replies, runOps (ops.take i) = .ok (t, replies) ∧ P t pfx value

theorem atInsert_iff {P : ArenaTable A V → IpPrefix A → V → Prop} {ops : List (Op A V)} {i : Nat}
    {t : ArenaTable A V} {replies : List (Reply A V)}
    (hrun : runOps (ops.take i) = .ok (t, replies)) :
    AtInsert P ops i ↔ ∀ pfx value, ops[i]? = some (.insert pfx value) → P t pfx value := by
  refine forall₂_congr fun pfx value => imp_congr_right fun _ =>
    ⟨?_, fun h => ⟨t, replies, hrun, h⟩⟩
  rintro ⟨t', replies', hrun', h⟩
  cases hrun.symm.trans hrun'
  exact h

/-- Where every `insert` so far had room, indices have lasted. -/
theorem runOps_take {ops : List (Op A V)} {i : Nat}
    (h : ∀ j < i, AtInsert (fun t pfx _ => t.HasRoom pfx) ops j) :
    ∃ t replies m, runOps (ops.take i) = .ok (t, replies) ∧ t.Represents m
      ∧ t.nodes.length ≤ NULL := by
  induction i with
  | zero =>
      have hone : 1 ≤ NULL := by decide
      exact ⟨_, _, _, Run.run_nil, ArenaTable.represents_new, hone⟩
  | succ i ih =>
      obtain ⟨t, replies, m, hrun, hm, hlen⟩ := ih fun j hj => h j (Nat.lt_succ_of_lt hj)
      rw [List.take_add_one]
      cases hop : ops[i]? with
      | none =>
          rw [Option.toList_none, List.append_nil]
          exact ⟨t, replies, m, hrun, hm, hlen⟩
      | some op =>
          obtain ⟨t', reply, hexec, hb', -, hrep⟩ := ArenaTable.exec_ok (m := m) hm.inBounds op
          have hlen' : t'.nodes.length ≤ NULL := by
            refine (ArenaTable.Step.of_exec hm.inBounds hexec).length_le hlen ?_
            rintro pfx value rfl
            exact (atInsert_iff hrun).mp (h i (Nat.lt_succ_self i)) pfx value hop
          exact ⟨t', _, _, Run.run_append hrun (Run.run_cons hexec Run.run_nil), (hrep hm hlen').1,
            hlen'⟩

/-- Where every `insert` so far had room, this one links positions if and only if it has. -/
theorem atInsert_linksPositions_iff {ops : List (Op A V)} {i : Nat}
    (h : ∀ j < i, AtInsert (fun t pfx _ => t.HasRoom pfx) ops j) :
    AtInsert ArenaTable.LinksPositions ops i
      ↔ AtInsert (fun t pfx _ => t.HasRoom pfx) ops i := by
  obtain ⟨t, replies, m, hrun, hm, hlen⟩ := runOps_take h
  rw [atInsert_iff hrun, atInsert_iff hrun]
  exact forall₂_congr fun pfx value =>
    imp_congr_right fun _ => ArenaTable.linksPositions_iff hm hlen pfx value

/-- **Indices.**  At every `insert` of a run the indices linked are the positions of
    the nodes pushed and never `NULL`, and the prefix is contained afterwards, if and
    only if at every `insert` there was room for the nodes missing on its path. -/
theorem links_positions_iff (ops : List (Op A V)) :
    (∀ i, AtInsert ArenaTable.LinksPositions ops i)
      ↔ ∀ i, AtInsert (fun t pfx _ => t.HasRoom pfx) ops i :=
  Run.forall_iff_of_before fun _ => atInsert_linksPositions_iff

/-! ## Running out -/

section Churn

/-- Insert one prefix and remove it again, `n` times. -/
def churn (pfx : IpPrefix A) (value : V) (n : Nat) : List (Op A V) :=
  (List.replicate n [Op.insert pfx value, Op.remove pfx]).flatten

variable {t : ArenaTable A V} {pfx : IpPrefix A} {bit : Fin 2}

/-- A child set and cut off again. -/
theorem setChild_new (bit : Fin 2) (child : Nat) :
    ((ArenaNode.new : ArenaNode V).setChild bit child).setChild bit NULL = ArenaNode.new := by
  rw [ArenaNode.setChild, ArenaNode.setChild, ArenaNode.new, Function.update_idem]
  exact congrArg (ArenaNode.mk · none) (Function.update_eq_self bit _)

/-- The nodes after the `insert` of a turn: the one pushed last is below the root and
    holds the value. -/
def insertedOne (nodes : List (ArenaNode V)) (bit : Fin 2) (value : V) : List (ArenaNode V) :=
  (pushAt nodes 0 .new bit).set nodes.length
    { (ArenaNode.new : ArenaNode V) with value := some value }

theorem step_insertedOne (hpath : (network pfx).bitPath = [bit]) (value : V)
    (hroot : t.nodes[0]? = some ArenaNode.new) (hlen : t.nodes.length < NULL) :
    t.Step (.insert pfx value) ⟨insertedOne t.nodes bit value⟩ .unit := by
  have hrun : InsertRun t.nodes 0 (network pfx).bitPath (pushAt t.nodes 0 .new bit)
      t.nodes.length := by
    rw [hpath]
    refine .push hroot ((edge_of_get hroot bit).trans link_null) ?_
    rw [cast_length hlen]
    exact .done _ _
  exact .insert hrun (getElem?_pushAt_new hroot)

/-- The `remove` of a turn cuts off that node and leaves the root as it was. -/
theorem removeRun_insertedOne {nodes : List (ArenaNode V)} (bit : Fin 2) (value : V)
    (hroot : nodes[0]? = some ArenaNode.new) (hlen : nodes.length < NULL) :
    ∃ nodes' empty, RemoveRun (insertedOne nodes bit value) 0 [bit] nodes' (some value) empty
      ∧ nodes'[0]? = some ArenaNode.new ∧ nodes'.length = nodes.length + 1 := by
  obtain ⟨hpos, -⟩ := List.getElem?_eq_some_iff.mp hroot
  have hpushed : (pushAt nodes 0 .new bit)[nodes.length]? = some .new := getElem?_pushAt_new hroot
  have hedge : edge (insertedOne nodes bit value) 0 bit = some nodes.length := by
    rw [insertedOne, edge_setValue hpushed, edge_pushAt_of_lt hroot hlen, setEdge_self]
  have hget : (insertedOne nodes bit value)[nodes.length]?
      = some { (ArenaNode.new : ArenaNode V) with value := some value } :=
    List.getElem?_set_self (List.getElem?_eq_some_iff.mp hpushed).1
  have hroot' : ((insertedOne nodes bit value).set nodes.length ⟨fun _ => NULL, none⟩)[0]?
      = some (ArenaNode.new.setChild bit (nodes.length % 2 ^ 32)) := by
    rw [List.getElem?_set_ne (Nat.ne_of_gt hpos), insertedOne,
      List.getElem?_set_ne (Nat.ne_of_gt hpos), pushAt, List.getElem?_set_self (by simp)]
  have hrun := RemoveRun.unlink hedge (.clear hget) hroot'
  refine ⟨_, _, hrun, ?_, ?_⟩
  · rw [setChild_new]
    exact List.getElem?_set_self (List.getElem?_eq_some_iff.mp hroot').1
  · rw [hrun.length_eq, insertedOne, List.length_set, length_pushAt]

/-- One turn on an arena with nothing below its root adds a node that is unlinked again. -/
theorem churn_once (hpath : (network pfx).bitPath = [bit]) (value : V)
    (hroot : t.nodes[0]? = some ArenaNode.new) (hlen : t.nodes.length < NULL) :
    ∃ t' replies, Run.run ArenaTable.exec t [.insert pfx value, .remove pfx] = .ok (t', replies)
      ∧ t'.nodes[0]? = some ArenaNode.new ∧ t'.nodes.length = t.nodes.length + 1 := by
  obtain ⟨nodes', empty, hrun, hroot', hlen'⟩ := removeRun_insertedOne bit value hroot hlen
  rw [← hpath] at hrun
  have hinsert := (step_insertedOne hpath value hroot hlen).exec
  have hremove := (ArenaTable.Step.remove (t := ⟨_⟩) hrun).exec
  exact ⟨_, _, Run.run_cons hinsert (Run.run_cons hremove Run.run_nil), hroot', hlen'⟩

/-- Each turn leaves one more node in the `Vec`, out of reach. -/
theorem churn_ok (hpath : (network pfx).bitPath = [bit]) (value : V) {n : Nat} (hn : n < NULL) :
    ∃ t replies, runOps (churn pfx value n) = .ok (t, replies)
      ∧ t.nodes[0]? = some ArenaNode.new ∧ t.nodes.length = n + 1 := by
  induction n with
  | zero => exact ⟨_, _, Run.run_nil, rfl, rfl⟩
  | succ n ih =>
      obtain ⟨t, replies, hrun, hroot, hlen⟩ := ih (by omega)
      obtain ⟨t', replies', hrun', hroot', hlen'⟩ := churn_once hpath value hroot (by omega)
      refine ⟨t', replies ++ replies', ?_, hroot', by omega⟩
      rw [churn, List.replicate_succ', List.flatten_concat]
      exact Run.run_append hrun hrun'

/-- With `NULL` nodes the next one pushed is linked as `NULL`, which is no link. -/
theorem insert_at_null (hb : InBounds t.nodes) (hpath : (network pfx).bitPath = [bit]) (value : V)
    (hroot : t.nodes[0]? = some ArenaNode.new) (hlen : t.nodes.length = NULL) :
    t.links pfx = .ok [(NULL, NULL)]
      ∧ ∃ t', t.insert pfx value = .ok t' ∧ t'.contains pfx = .ok false := by
  have hins : InsertRun t.nodes 0 (network pfx).bitPath (pushAt t.nodes 0 .new bit)
      (t.nodes.length % 2 ^ 32) := by
    rw [hpath]
    exact .push hroot ((edge_of_get hroot bit).trans link_null) (.done _ _)
  obtain ⟨node, hget⟩ : ∃ node, (pushAt t.nodes 0 .new bit)[t.nodes.length % 2 ^ 32]? = some node :=
    ⟨_, List.getElem?_eq_getElem (hins.inBounds hb hb.nonempty).2⟩
  have hinsert := ArenaTable.insert_eq pfx value hins hget
  refine ⟨?_, _, hinsert, ?_⟩
  · rw [ArenaTable.links_eq pfx hins, length_pushAt, hlen, casts_cons (Nat.lt_succ_self _),
      casts_self]
    rfl
  · have hno : edge (pushAt t.nodes 0 .new bit) 0 bit = none := by
      rw [edge_pushAt hroot, setEdge_self, hlen]
      exact link_null
    obtain ⟨t', hinsert', hb', -⟩ := ArenaTable.insert_ok (m := fun _ => none) hb pfx value
    cases hinsert.symm.trans hinsert'
    rw [ArenaTable.contains_eq hb', find, hpath, walk, edge_setValue hget, hno]
    rfl

theorem length_churn (pfx : IpPrefix A) (value : V) (n : Nat) :
    (churn pfx value n).length = n * 2 := by
  simp [churn]

/-- After `NULL - 1` turns the next `insert` fails. -/
theorem churn_exhausts (hpath : (network pfx).bitPath = [bit]) (value : V) {n : Nat}
    (hn : n + 1 = NULL) :
    ¬ AtInsert ArenaTable.LinksPositions (churn pfx value n ++ [Op.insert pfx value]) (n * 2)
      ∧ ∃ t replies t', runOps (churn pfx value n) = .ok (t, replies)
        ∧ t.links pfx = .ok [(NULL, NULL)] ∧ t.insert pfx value = .ok t'
        ∧ t'.contains pfx = .ok false := by
  obtain ⟨t, replies, hrun, hroot, hlen⟩ := churn_ok hpath value (show n < NULL by omega)
  obtain ⟨t₁, replies₁, hrun₁, hrep⟩ := runOps_represents (churn pfx value n)
  cases hrun.symm.trans hrun₁
  have hb := (hrep (by omega)).1.inBounds
  obtain ⟨hlinks, t', hinsert, hcontains⟩ := insert_at_null hb hpath value hroot (hlen.trans hn)
  refine ⟨?_, t, replies, t', hrun, hlinks, hinsert, hcontains⟩
  have htake : (churn pfx value n ++ [Op.insert pfx value]).take (n * 2) = churn pfx value n := by
    rw [← length_churn pfx value n, List.take_left]
  have hop : (churn pfx value n ++ [Op.insert pfx value])[n * 2]? = some (.insert pfx value) := by
    rw [← length_churn pfx value n, List.getElem?_concat_length]
  rw [atInsert_iff (by rw [htake]; exact hrun)]
  intro h
  obtain ⟨links, t₂, -, hinsert₂, -, hcontains₂⟩ := h pfx value hop
  cases hinsert.symm.trans hinsert₂
  cases hcontains.symm.trans hcontains₂

/-- The prefix `0.0.0.0/1`. -/
def lowerHalf : IpPrefix Ipv4Addr := (⟨0, 1, by decide⟩ : WordPrefix 32)

/-- **Indices run out.**  Insert `0.0.0.0/1` and remove it again `2 ^ 32 - 2` times:
    the next `insert` links the node it pushes as `NULL`, and does not contain the
    prefix it was given. -/
theorem index_reaches_null :
    ¬ AtInsert ArenaTable.LinksPositions
        (churn lowerHalf () (NULL - 1) ++ [Op.insert lowerHalf ()]) ((NULL - 1) * 2)
      ∧ ∃ t replies t', runOps (churn lowerHalf () (NULL - 1)) = .ok (t, replies)
        ∧ t.links lowerHalf = .ok [(NULL, NULL)] ∧ t.insert lowerHalf () = .ok t'
        ∧ t'.contains lowerHalf = .ok false := by
  have hpath : (network lowerHalf).bitPath = [bitOf 32 0 0] := rfl
  exact churn_exhausts hpath () (Nat.sub_add_cancel (by decide))

end Churn

end Routemap
