/-
  Routemap.Arena.Space

  How much of its `Vec` an arena uses.  The nodes the root reaches are those of the
  trie of the bits of the live prefixes.  An `insert` pushes what is missing of its
  path in that trie, and nothing is ever given back; so the length of the `Vec` is
  told by the calls of a run, which also tell whether every `insert` links positions,
  and with few enough inserts indices last.
-/
import Routemap.Lib.Prefixes
import Routemap.Arena.Indices
import Routemap.Arena.Shape

namespace Routemap

open Walk History

/-! ## Paths of bits -/

/-- The bits of a path as the top bits of an address. -/
theorem exists_topBits {bits : Nat} (path : List (Fin 2)) (hlen : path.length ≤ bits) :
    ∃ top < 2 ^ path.length, ∀ a < 2 ^ bits, Network.topBits bits a path.length = top →
      bitsFrom bits a 0 path.length = path := by
  induction path using List.reverseRecOn with
  | nil => exact ⟨0, Nat.one_pos, fun a _ _ => rfl⟩
  | append_singleton path bit ih =>
      rw [List.length_append, List.length_singleton] at hlen ⊢
      obtain ⟨top, htop, hbits⟩ := ih (by omega)
      have hbit := bit.isLt
      refine ⟨2 * top + bit.val, by rw [Nat.pow_succ]; omega, ?_⟩
      intro a ha heq
      rw [topBits_bit hlen] at heq
      have hlast := (bitOf bits a path.length).isLt
      rw [bitsFrom_concat, hbits a ha (by omega), Nat.zero_add,
        show bitOf bits a path.length = bit from Fin.ext (by omega)]

/-- Every path no longer than an address is that of a network. -/
theorem Network.exists_bitPath {bits : Nat} (hbits : bits ≤ 128) {path : List (Fin 2)}
    (hlen : path.length ≤ bits) : ∃ n : Network bits, n.bitPath = path := by
  obtain ⟨top, htop, hpath⟩ := exists_topBits path hlen
  exact ⟨ofTop hbits path.length top hlen htop, hpath _ (addr_lt _) (ofTop_top ..)⟩

variable {A V : Type} [IpAddress A]

/-! ## The nodes in reach -/

namespace ArenaTable

variable {t : ArenaTable A V} {m : Fib (IpAddress.bits A) V}

/-- **The nodes in reach** are those of the trie of the bits of the networks. -/
theorem WellShaped.walk_isSome_iff_mem (hs : t.WellShaped) (hm : t.Represents m)
    (path : List (Fin 2)) :
    (walk (edge t.nodes) 0 path).isSome = true
      ↔ path ∈ Prefixes.nodes (Network.bitPath '' support m) := by
  rw [hs.tight.walk_isSome_iff hs.forest]
  refine or_congr_right ?_
  rw [Set.exists_mem_image]
  refine ⟨?_, ?_⟩
  · rintro ⟨rest, v, hv⟩
    -- the value is that of a network, as no path is longer than an address
    obtain ⟨i, hi, -⟩ := Option.bind_eq_some_iff.mp hv
    obtain ⟨n, hn⟩ := Network.exists_bitPath (bits_le A) (hs.tight.length_le _ _ hi)
    rw [← hn, hm.find_eq] at hv
    exact ⟨n, Option.isSome_iff_exists.mpr ⟨v, hv⟩, rest, hn.symm⟩
  · rintro ⟨n, hn, rest, hrest⟩
    obtain ⟨v, hv⟩ := Option.isSome_iff_exists.mp hn
    exact ⟨rest, v, by rw [hrest, hm.find_eq, hv]⟩

theorem WellShaped.ncard_reached (hs : t.WellShaped) (hm : t.Represents m) :
    {i | Reaches (edge t.nodes) 0 i}.ncard
      = (Prefixes.nodes (Network.bitPath '' support m)).ncard := by
  -- one path to a node, one node to a path
  have hset : {i | Reaches (edge t.nodes) 0 i}
      = (fun path => (walk (edge t.nodes) 0 path).getD 0)
        '' Prefixes.nodes (Network.bitPath '' support m) := by
    ext i
    refine ⟨?_, ?_⟩
    · rintro ⟨path, hpath⟩
      exact ⟨path, (hs.walk_isSome_iff_mem hm path).mp (by simp [hpath]), by simp [hpath]⟩
    · rintro ⟨path, hpath, rfl⟩
      obtain ⟨i, hi⟩ := Option.isSome_iff_exists.mp ((hs.walk_isSome_iff_mem hm path).mpr hpath)
      exact ⟨path, by simp [hi]⟩
  rw [hset]
  refine Set.InjOn.ncard_image ?_
  intro path hpath path' hpath' heq
  obtain ⟨i, hi⟩ := Option.isSome_iff_exists.mp ((hs.walk_isSome_iff_mem hm path).mpr hpath)
  obtain ⟨i', hi'⟩ := Option.isSome_iff_exists.mp ((hs.walk_isSome_iff_mem hm path').mpr hpath')
  simp only [hi, hi', Option.getD_some] at heq
  subst heq
  exact hs.forest.walk_injective hi hi'

end ArenaTable

/-! ## What an insert pushes -/

section Loop

variable {nodes nodes' : List (ArenaNode V)} {cur cur' : Nat} {path : List (Fin 2)}

/-- The loop of `insert` pushes the nodes that are missing. -/
theorem InsertRun.length_eq (h : InsertRun nodes cur path nodes' cur')
    (hlen : nodes'.length ≤ NULL) : nodes'.length = nodes.length + missing nodes cur path := by
  induction h with
  | done => rfl
  | follow hedge _ ih => rw [ih hlen, missing, hedge]
  | push hget hfree hrest ih =>
      have hlt := hrest.length_lt
      rw [ih hlen, length_pushAt, missing, hfree,
        missing_of_no_edge (edge_pushAt_new hget (by omega))]
      dsimp only
      omega

/-- The missing nodes are the ends of the starts of the path that lead nowhere. -/
theorem missing_eq_ncard (nodes : List (ArenaNode V)) (cur : Nat) (path : List (Fin 2)) :
    missing nodes cur path = {p | p <+: path ∧ walk (edge nodes) cur p = none}.ncard := by
  induction path generalizing cur with
  | nil =>
      have hempty : {p : List (Fin 2) | p <+: [] ∧ walk (edge nodes) cur p = none} = ∅ := by
        ext p
        refine ⟨?_, fun h => h.elim⟩
        rintro ⟨hp, hnone⟩
        rw [List.prefix_nil.mp hp] at hnone
        cases hnone
      rw [hempty, Set.ncard_empty]
      rfl
  | cons bit path ih =>
      -- the empty start leads to `cur`, the others begin with the bit
      have hset : {p | p <+: bit :: path ∧ walk (edge nodes) cur p = none}
          = (bit :: ·) '' {p | p <+: path ∧
              ((edge nodes cur bit).bind fun j => walk (edge nodes) j p) = none} := by
        ext p
        refine ⟨?_, ?_⟩
        · rintro ⟨hp, hnone⟩
          rcases List.prefix_cons_iff.mp hp with rfl | ⟨p', rfl, hp'⟩
          · cases hnone
          · exact ⟨p', ⟨hp', hnone⟩, rfl⟩
        · rintro ⟨p', ⟨hp', hnone⟩, rfl⟩
          exact ⟨List.prefix_cons_iff.mpr (Or.inr ⟨p', rfl, hp'⟩), hnone⟩
      rw [hset, Set.ncard_image_of_injective _ List.cons_injective, missing]
      cases hedge : edge nodes cur bit with
      | some child => exact ih child
      | none =>
          simp only [Option.bind_none, and_true]
          exact (Prefixes.ncard_prefixes path).symm

end Loop

/-! ## Runs -/

/-- What an arena of the networks of `m` allocates for a call. -/
noncomputable def Op.need (m : Fib (IpAddress.bits A) V) : Op A V → Nat
  | .insert pfx _ => Prefixes.missing (Network.bitPath '' support m) (network pfx).bitPath
  | _ => 0

/-- What it allocates for calls one after the other. -/
noncomputable def allocated : Fib (IpAddress.bits A) V → List (Op A V) → Nat
  | _, [] => 0
  | m, op :: ops => op.need m + allocated (op.call.apply m) ops

/-- Whether a call is an insert. -/
def Op.isInsert : Op A V → Bool
  | .insert .. => true
  | _ => false

theorem allocated_le (m : Fib (IpAddress.bits A) V) (ops : List (Op A V)) :
    allocated m ops ≤ ops.countP Op.isInsert * IpAddress.bits A := by
  induction ops generalizing m with
  | nil => exact Nat.zero_le _
  | cons op ops ih =>
      have hrest := ih (op.call.apply m)
      rw [allocated, List.countP_cons, Nat.add_mul]
      cases op with
      | insert pfx value =>
          have hmiss := Prefixes.missing_le (Network.bitPath '' support m) (network pfx).bitPath
          have hlen := (network pfx).len_le
          rw [Network.length_bitPath] at hmiss
          simp only [Op.need, Op.isInsert, ↓reduceIte, Nat.one_mul]
          omega
      | _ =>
          simp only [Op.need, Op.isInsert, Bool.false_eq_true, ↓reduceIte]
          omega

namespace ArenaTable

variable {t t' : ArenaTable A V} {m : Fib (IpAddress.bits A) V} {op : Op A V} {reply : Reply A V}

theorem missing_eq_need (hs : t.WellShaped) (hm : t.Represents m) (pfx : IpPrefix A) (value : V) :
    missing t.nodes 0 (network pfx).bitPath = (Op.insert pfx value).need m := by
  rw [missing_eq_ncard, Op.need, Prefixes.missing]
  congr 1
  ext path
  refine and_congr_right fun _ => ?_
  rw [← hs.walk_isSome_iff_mem hm, Option.not_isSome_iff_eq_none]

/-- A call takes what it needs while indices last, and fails to only where they do not. -/
theorem Step.length_eq (h : t.Step op t' reply) (hs : t.WellShaped) (hm : t.Represents m)
    (hlen : t.nodes.length ≤ NULL) :
    (t'.nodes.length ≤ NULL ↔ t.nodes.length + op.need m ≤ NULL)
      ∧ (t'.nodes.length ≤ NULL → t'.nodes.length = t.nodes.length + op.need m) := by
  cases h with
  | @insert pfx value nodes cur node hrun hget =>
      rw [List.length_set, ← missing_eq_need hs hm pfx value]
      exact ⟨hrun.length_le_iff hlen, hrun.length_eq⟩
  | remove hrun =>
      rw [hrun.length_eq]
      exact ⟨Iff.rfl, fun _ => rfl⟩
  | contains => exact ⟨Iff.rfl, fun _ => rfl⟩
  | longestMatch => exact ⟨Iff.rfl, fun _ => rfl⟩

/-- An arena never gives a node back. -/
theorem length_le_run {ops : List (Op A V)} {replies : List (Reply A V)} (hb : InBounds t.nodes)
    (hrun : Run.run ArenaTable.exec t ops = .ok (t', replies)) :
    t.nodes.length ≤ t'.nodes.length := by
  induction ops generalizing t replies with
  | nil =>
      cases hrun
      exact Nat.le_refl _
  | cons op ops ih =>
      obtain ⟨t₁, reply, rest, hexec, hrest, -⟩ := Run.run_cons_inv hrun
      obtain ⟨t₂, reply₂, hexec₂, hb', hle, -⟩ := exec_ok (m := fun _ => none) hb op
      cases hexec.symm.trans hexec₂
      exact hle.trans (ih hb' hrest)

/-- The length of the `Vec` at the end of calls on an arena of `m`. -/
theorem run_length {ops : List (Op A V)} {replies : List (Reply A V)} (hs : t.WellShaped)
    (hm : t.Represents m) (hlen : t.nodes.length ≤ NULL)
    (hrun : Run.run ArenaTable.exec t ops = .ok (t', replies)) :
    (t'.nodes.length ≤ NULL ↔ t.nodes.length + allocated m ops ≤ NULL)
      ∧ (t'.nodes.length ≤ NULL → t'.nodes.length = t.nodes.length + allocated m ops) := by
  induction ops generalizing t m replies with
  | nil =>
      cases hrun
      exact ⟨Iff.rfl, fun _ => rfl⟩
  | cons op ops ih =>
      obtain ⟨t₁, reply, rest, hexec, hrest, -⟩ := Run.run_cons_inv hrun
      have hstep := Step.of_exec hs.inBounds hexec
      obtain ⟨hiff, heq⟩ := hstep.length_eq hs hm hlen
      obtain ⟨t₂, reply₂, hexec₂, hb', -, hrep⟩ := exec_ok (m := m) hs.inBounds op
      cases hexec.symm.trans hexec₂
      rw [allocated]
      by_cases hgood : t₁.nodes.length ≤ NULL
      · -- indices last through this call, and the rest goes on from here
        obtain ⟨hiff', heq'⟩ := ih (hs.step hstep hgood) (hrep hm hgood).1 hgood hrest
        rw [heq hgood] at hiff' heq'
        rw [← Nat.add_assoc]
        exact ⟨hiff', heq'⟩
      · -- they do not, and the `Vec` gets no shorter
        have hle := length_le_run hb' hrest
        rw [hiff] at hgood
        refine ⟨⟨fun h => ?_, fun h => ?_⟩, fun h => ?_⟩
        all_goals omega

end ArenaTable

/-- The paths of the prefixes that calls leave live, in bits. -/
def liveBits (ops : List (Op A V)) : Set (List (Fin 2)) :=
  Network.bitPath '' {n | ∃ v, Live (writes (ops.map Op.call)) n v}

/-- A run of an arena whose indices last ends in a well shaped arena of the live map. -/
theorem runOps_wellShaped (ops : List (Op A V)) :
    ∃ a replies m, runOps ops = .ok (a, replies)
      ∧ (∀ n v, Live (writes (ops.map Op.call)) n v ↔ m n = some v)
      ∧ (a.nodes.length ≤ NULL → a.WellShaped ∧ a.Represents m) := by
  obtain ⟨a, replies, hrun, hrep⟩ := runOps_represents ops
  refine ⟨a, replies, _, hrun, live_iff (writes (ops.map Op.call)), ?_⟩
  intro hlen
  have hm := (hrep hlen).1
  rw [foldl_apply] at hm
  exact ⟨run_wellShaped ArenaTable.wellShaped_new hrun hlen, hm⟩

/-- The length of the `Vec` at the end of a run. -/
theorem runOps_length {ops : List (Op A V)} {a : ArenaTable A V} {replies : List (Reply A V)}
    (hrun : runOps ops = .ok (a, replies)) :
    (a.nodes.length ≤ NULL ↔ 1 + allocated (fun _ => none) ops ≤ NULL)
      ∧ (a.nodes.length ≤ NULL → a.nodes.length = 1 + allocated (fun _ => none) ops) := by
  have hone : 1 ≤ NULL := by decide
  exact ArenaTable.run_length ArenaTable.wellShaped_new ArenaTable.represents_new hone hrun

/-- **Space.**  A run of an arena ends with at most `u32::MAX` nodes if and only if the
    root and what is missing at each insert are no more, and then with exactly as many.
    In reach of its root are the nodes of the trie of the live prefixes, and the rest
    are nodes that `remove` has unlinked. -/
theorem arena_space (ops : List (Op A V)) :
    ∃ a replies, runOps ops = .ok (a, replies)
      ∧ (a.nodes.length ≤ NULL ↔ 1 + allocated (fun _ => none) ops ≤ NULL)
      ∧ (1 + allocated (fun _ => none) ops ≤ NULL →
          a.nodes.length = 1 + allocated (fun _ => none) ops
          ∧ {i | Reaches (edge a.nodes) 0 i}.ncard = (Prefixes.nodes (liveBits ops)).ncard) := by
  obtain ⟨a, replies, m, hrun, hlive, hgood⟩ := runOps_wellShaped ops
  obtain ⟨hiff, heq⟩ := runOps_length hrun
  refine ⟨a, replies, hrun, hiff, ?_⟩
  intro hroom
  have hlen := hiff.mpr hroom
  obtain ⟨hs, hm⟩ := hgood hlen
  refine ⟨heq hlen, ?_⟩
  rw [hs.ncard_reached hm, liveBits]
  congr 3
  ext n
  simp only [support, Set.mem_ofPred_eq, Option.isSome_iff_exists, hlive]

/-- Every `insert` of a run has room if and only if indices last to the end of it. -/
theorem forall_hasRoom_iff (ops : List (Op A V)) :
    (∀ i, AtInsert (fun t pfx _ => t.HasRoom pfx) ops i)
      ↔ 1 + allocated (fun _ => none) ops ≤ NULL := by
  obtain ⟨a, replies, hrun, -⟩ := runOps_represents ops
  obtain ⟨hiff, -⟩ := runOps_length hrun
  refine Iff.trans ⟨?_, ?_⟩ hiff
  · intro h
    obtain ⟨a', replies', -, hrun', -, hlen⟩ := runOps_take (i := ops.length) fun j _ => h j
    rw [List.take_length] at hrun'
    cases hrun.symm.trans hrun'
    exact hlen
  · intro hlen i
    induction i using Nat.strong_induction_on with
    | _ i ih =>
        obtain ⟨t, before, m, htake, hm, hlen₀⟩ := runOps_take ih
        rw [atInsert_iff htake]
        intro pfx value hop
        -- the rest of the run starts with this `insert` and only makes the `Vec` longer
        obtain ⟨hi, hget⟩ := List.getElem?_eq_some_iff.mp hop
        rw [← List.take_append_drop i ops, List.drop_eq_getElem_cons hi, hget] at hrun
        obtain ⟨t₀, before₀, after, htake₀, hrest, -⟩ := Run.run_append_inv hrun
        cases htake.symm.trans htake₀
        obtain ⟨t₁, reply, rest, hexec, hrest₁, -⟩ := Run.run_cons_inv hrest
        obtain ⟨t₂, reply₂, hexec₂, hb₁, -⟩ :=
          ArenaTable.exec_ok (m := m) hm.inBounds (.insert pfx value)
        cases hexec.symm.trans hexec₂
        have hle := ArenaTable.length_le_run hb₁ hrest₁
        exact ((ArenaTable.Step.of_exec hm.inBounds hexec).length_le_iff hlen₀).mp (hle.trans hlen)

/-- **Indices, from the calls.**  At every `insert` of a run the indices linked are the
    positions of the nodes pushed and never `NULL`, and the prefix is contained afterwards,
    if and only if the root and what is missing at each insert are at most `u32::MAX`. -/
theorem links_positions_iff_allocated (ops : List (Op A V)) :
    (∀ i, AtInsert ArenaTable.LinksPositions ops i)
      ↔ 1 + allocated (fun _ => none) ops ≤ NULL :=
  (Run.forall_iff_of_before fun _ => atInsert_linksPositions_iff).trans (forall_hasRoom_iff ops)

/-- **Few inserts.**  Calls with so few inserts that indices would last even if each of
    them pushed a node for every bit of an address get the same replies from an arena as
    from a `RouteMap`, however many calls of the other kinds there are. -/
theorem few_inserts_agree (ops : List (Op A V))
    (hfew : 1 + ops.countP Op.isInsert * IpAddress.bits A ≤ NULL) :
    ∃ a t replies, runOps ops = .ok (a, replies)
      ∧ runCalls (ops.map Op.call) = .ok (t, replies) := by
  obtain ⟨a, replies, hrun, hsim⟩ := runOps_represents ops
  obtain ⟨t, replies', hrun', -, hanswers'⟩ := run_represents (ops.map Op.call)
  obtain ⟨hiff, -⟩ := runOps_length hrun
  have halloc := allocated_le (fun _ => none) ops
  have hlen : a.nodes.length ≤ NULL := by
    refine hiff.mpr (Nat.le_trans ?_ hfew)
    exact Nat.add_le_add_left halloc 1
  obtain ⟨-, hanswers⟩ := hsim hlen
  rw [Run.answers_map] at hanswers hanswers'
  obtain rfl := Run.Answers.unique Op.answer_unique hanswers hanswers'
  exact ⟨a, t, replies, hrun, hrun'⟩

/-- Three turns of a prefix inserted and removed. -/
theorem few_inserts_agree_churn :
    ∃ a t replies, runOps (churn lowerHalf () 3) = .ok (a, replies)
      ∧ runCalls ((churn lowerHalf () 3).map Op.call) = .ok (t, replies) :=
  few_inserts_agree (churn lowerHalf () 3) (by decide)

end Routemap
