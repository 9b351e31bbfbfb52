/-
  Routemap.Treebitmap.Commute

  Calls of `RouteMap` up to their order.  An update concerns the network of its
  prefix, an exact query the same, a lookup the networks that cover its address, and
  an iteration all of them (`footprint`).  Calls that do not meet can be exchanged:
  the table they leave is the same to the last bit, and so is every reply.
-/
import Routemap.Lib.Trace
import Routemap.Treebitmap.Queries

namespace Routemap

open History Trace

variable {A V : Type} [IpAddress A]

/-! ## Footprints -/

/-- The networks whose entry a call may change. -/
def Call.Writes : Call A V → Network (IpAddress.bits A) → Prop
  | .insert pfx _, n => network pfx = n
  | .remove pfx, n => network pfx = n
  | .clear, _ => True
  | .fromIter _, _ => True
  | _, _ => False

/-- The networks whose entry the reply depends on. -/
def Call.Reads : Call A V → Network (IpAddress.bits A) → Prop
  | .remove pfx, n => network pfx = n
  | .get pfx, n => network pfx = n
  | .contains pfx, n => network pfx = n
  | .longestMatch addr, n => n.Covers (IpAddress.toU128 addr)
  | .longestMatchEntry addr, n => n.Covers (IpAddress.toU128 addr)
  | .iter, _ => True
  | .next _, _ => True
  | _, _ => False

theorem Call.apply_insert (m : Fib (IpAddress.bits A) V) (pfx : IpPrefix A) (value : V) :
    (Call.insert pfx value).apply m = Function.update m (network pfx) (some value) := rfl

theorem Call.apply_remove (m : Fib (IpAddress.bits A) V) (pfx : IpPrefix A) :
    (Call.remove pfx : Call A V).apply m = Function.update m (network pfx) none := rfl

theorem Call.apply_frame (m : Fib (IpAddress.bits A) V) (call : Call A V)
    (n : Network (IpAddress.bits A)) (h : ¬ call.Writes n) : call.apply m n = m n := by
  cases call with
  | insert pfx value => exact Function.update_of_ne (Ne.symm h) _ _
  | remove pfx => exact Function.update_of_ne (Ne.symm h) _ _
  | clear => exact absurd trivial h
  | fromIter pairs => exact absurd trivial h
  | _ => rfl

/-- What a call writes does not depend on the map. -/
theorem Call.apply_written (m m' : Fib (IpAddress.bits A) V) (call : Call A V)
    (n : Network (IpAddress.bits A)) (h : call.Writes n) : call.apply m n = call.apply m' n := by
  cases call with
  | insert pfx value =>
      cases h
      rw [apply_insert, apply_insert, Function.update_self, Function.update_self]
  | remove pfx =>
      cases h
      rw [apply_remove, apply_remove, Function.update_self, Function.update_self]
  | clear => rfl
  | fromIter pairs => rfl
  | _ => exact h.elim

theorem Call.answer_congr (m m' : Fib (IpAddress.bits A) V) (call : Call A V) (reply : Reply A V)
    (hsame : ∀ n, call.Reads n → m n = m' n) (h : call.Answer m reply) :
    call.Answer m' reply := by
  cases call with
  | insert pfx value => cases reply <;> exact h
  | clear => cases reply <;> exact h
  | fromIter pairs => cases reply <;> exact h
  | remove pfx => cases reply <;> first | exact h.elim | exact h.trans (hsame _ rfl)
  | get pfx => cases reply <;> first | exact h.elim | exact h.trans (hsame _ rfl)
  | contains pfx =>
      cases reply <;> first | exact h.elim | exact h.trans (congrArg _ (hsame _ rfl))
  | longestMatch addr =>
      cases reply <;> try exact h.elim
      intro v
      rw [h v]
      exact exists_congr fun n => Fib.isLongest_congr hsame
  | longestMatchEntry addr =>
      cases reply <;> try exact h.elim
      obtain ⟨hsome, hnone⟩ := h
      refine ⟨?_, hnone.trans (Fib.noMatch_congr hsame)⟩
      intro pfx v
      rw [hsome]
      exact and_congr_right fun _ => Fib.isLongest_congr hsame
  | iter =>
      cases (funext fun n => hsame n trivial : m = m')
      exact h
  | next k =>
      cases (funext fun n => hsame n trivial : m = m')
      exact h

/-- The footprint of the calls. -/
def footprint : Footprint (Call.apply (A := A) (V := V)) Call.Answer where
  Writes := Call.Writes
  Reads := Call.Reads
  frame := Call.apply_frame
  written m m' call n _ := Call.apply_written m m' call n
  answered := Call.answer_congr

/-- Neither call changes what the other one changes or sees. -/
abbrev Independent (a b : Call A V) : Prop := (footprint (A := A) (V := V)).Indep a b

/-! ## Right replies -/

/-- A map has one listing. -/
theorem Listing.unique {m : Fib (IpAddress.bits A) V} {es es' : List (IpPrefix A × V)}
    (h : Listing m es) (h' : Listing m es') : es = es' := by
  have hirrefl : Std.Irrefl fun a b : IpPrefix A × V => prefixKey a.1 < prefixKey b.1 :=
    ⟨fun a => List.lt_irrefl _⟩
  have hasymm : Std.Asymm fun a b : IpPrefix A × V => prefixKey a.1 < prefixKey b.1 :=
    ⟨fun a b hab hba => List.lt_asymm hab hba⟩
  refine h.sorted.eq_of_mem_iff h'.sorted ?_
  rintro ⟨pfx, v⟩
  rw [h.mem_iff, h'.mem_iff]

/-- In a map, a call has one right reply. -/
theorem Call.answer_unique (m : Fib (IpAddress.bits A) V) (call : Call A V) (r r' : Reply A V)
    (h : call.Answer m r) (h' : call.Answer m r') : r = r' := by
  cases call <;> cases r <;> try exact h.elim
  all_goals cases r' <;> try exact h'.elim
  case remove => exact congrArg Reply.value (h.trans h'.symm)
  case get => exact congrArg Reply.value (h.trans h'.symm)
  case contains => exact congrArg Reply.flag (h.trans h'.symm)
  case longestMatch => exact congrArg Reply.value (Option.ext fun v => (h v).trans (h' v).symm)
  case longestMatchEntry =>
    refine congrArg Reply.entry (Option.ext ?_)
    rintro ⟨pfx, v⟩
    exact (h.1 pfx v).trans (h'.1 pfx v).symm
  case iter => exact congrArg Reply.entries (h.unique h')
  case next =>
    obtain ⟨all, hall, rfl⟩ := h
    obtain ⟨all', hall', rfl⟩ := h'
    rw [hall.unique hall']
  all_goals rfl

/-! ## Exchanging calls -/

/-- The states of a table. -/
def RouteMap.Valid (t : RouteMap A V) : Prop := ∃ m, RouteMap.Represents t m

theorem RouteMap.valid_exec (t : RouteMap A V) (call : Call A V) (t' : RouteMap A V)
    (reply : Reply A V) (ht : t.Valid) (hexec : t.exec call = .ok (t', reply)) : t'.Valid := by
  obtain ⟨m, h⟩ := ht
  obtain ⟨t₁, reply₁, hexec₁, h', -⟩ := h.exec call
  cases hexec.symm.trans hexec₁
  exact ⟨_, h'⟩

/-- Independent calls commute in every table. -/
theorem RouteMap.commutes (t : RouteMap A V) (a b : Call A V) (ht : t.Valid)
    (hab : Independent a b) : Commutes RouteMap.exec t a b := by
  obtain ⟨m, h⟩ := ht
  exact Footprint.commute (R := fun (t : RouteMap A V) m => RouteMap.Represents t m)
    (fun s m call h => h.exec call) (fun s s' m h h' => h.unique h') Call.answer_unique hab h

theorem independent_symm (a b : Call A V) (h : Independent a b) : Independent b a := h.symm

theorem swapped_logs {log log' : List (Call A V × Reply A V)}
    (h : Swaps (fun a b => Independent a.1 b.1) log log') (t : RouteMap A V) :
    Logged RouteMap.exec RouteMap.new log t ↔ Logged RouteMap.exec RouteMap.new log' t := by
  have hnew : (RouteMap.new : RouteMap A V).Valid := ⟨_, RouteMap.represents_new⟩
  refine ⟨?_, ?_⟩
  · exact h.logged RouteMap.valid_exec RouteMap.commutes hnew
  · have h' := h.symm fun a b => independent_symm a.1 b.1
    exact h'.logged RouteMap.valid_exec RouteMap.commutes hnew

/-- **Runs up to exchanges.**  Exchanging neighbouring calls that are independent, any
    number of times, leaves the table a run ends in and the reply to each call as they
    are. -/
theorem swapped_run {log log' : List (Call A V × Reply A V)}
    (h : Swaps (fun a b => Independent a.1 b.1) log log') (t : RouteMap A V) :
    runCalls (log.map Prod.fst) = .ok (t, log.map Prod.snd)
      ↔ runCalls (log'.map Prod.fst) = .ok (t, log'.map Prod.snd) :=
  swapped_logs h t

/-- The prefix `10.0.0.0/8`. -/
def tenEight : IpPrefix Ipv4Addr := (⟨0x0A000000, 8, by decide⟩ : WordPrefix 32)

/-- The prefix `10.20.0.0/16`. -/
def tenSixteen : IpPrefix Ipv4Addr := (⟨0x0A140000, 16, by decide⟩ : WordPrefix 32)

/-- An insert and a lookup outside of its prefix, in both orders. -/
theorem swapped_run_outside :
    runCalls [Call.longestMatch 0xC0A80101#32, .insert tenEight 1]
      = .ok (⟨TbNode.new.insertPath [0, 10] 1 1, 1⟩, [.value none, .unit]) := by
  have hindep : Independent (Call.insert tenEight 1) (.longestMatch 0xC0A80101#32) := by
    refine ⟨?_, fun n hn => hn.elim⟩
    rintro n rfl
    have hout : ¬ (network tenEight).Covers (IpAddress.toU128 0xC0A80101#32) := by decide
    exact ⟨hout, id⟩
  have hswap : Swaps
      (fun a b : Call Ipv4Addr Nat × Reply Ipv4Addr Nat => Independent a.1 b.1)
      [(Call.insert tenEight 1, Reply.unit), (.longestMatch 0xC0A80101#32, .value none)]
      [(.longestMatch 0xC0A80101#32, .value none), (.insert tenEight 1, .unit)] := by
    refine Swaps.swap [] [] ?_
    exact hindep
  exact (swapped_run hswap _).mp rfl

/-! ## Streams of exact calls -/

/-- The network of an update or of an exact query. -/
def Call.network? : Call A V → Option (Network (IpAddress.bits A))
  | .insert pfx _ => some (network pfx)
  | .remove pfx => some (network pfx)
  | .get pfx => some (network pfx)
  | .contains pfx => some (network pfx)
  | _ => none

/-- An exact call concerns its own network only. -/
theorem Call.eq_of_touches {call : Call A V} {n : Network (IpAddress.bits A)}
    (hexact : call.network?.isSome = true) (h : call.Writes n ∨ call.Reads n) :
    call.network? = some n := by
  cases call with
  | insert => exact congrArg some (h.elim id False.elim)
  | remove => exact congrArg some (h.elim id id)
  | get => exact congrArg some (h.elim False.elim id)
  | contains => exact congrArg some (h.elim False.elim id)
  | _ => cases hexact

theorem independent_of_ne {a b : Call A V} (ha : a.network?.isSome = true)
    (hb : b.network?.isSome = true) (hne : a.network? ≠ b.network?) : Independent a b where
  left n hn := by
    have han := Call.eq_of_touches ha (Or.inl hn)
    refine ⟨?_, ?_⟩
    · intro h
      exact hne (han.trans (Call.eq_of_touches hb (Or.inr h)).symm)
    · intro h
      exact hne (han.trans (Call.eq_of_touches hb (Or.inl h)).symm)
  right n hn h :=
    hne ((Call.eq_of_touches ha (Or.inr h)).trans (Call.eq_of_touches hb (Or.inl hn)).symm)

/-- Exact calls with the same stream for each network differ by exchanges. -/
theorem swaps_of_streams {calls calls' : List (Call A V)}
    (hexact : ∀ call ∈ calls, call.network?.isSome = true)
    (hexact' : ∀ call ∈ calls', call.network?.isSome = true)
    (hsame : ∀ n, calls.filter (fun call => call.network? = some n)
      = calls'.filter fun call => call.network? = some n) :
    Swaps (fun a b : Call A V => a.network? ≠ b.network?) calls calls' := by
  have hnone : ∀ {calls : List (Call A V)}, (∀ call ∈ calls, call.network?.isSome = true) →
      calls.filter (fun call => call.network? = none) = [] := by
    intro calls h
    rw [List.filter_eq_nil_iff]
    intro call hcall heq
    have hsome := h call hcall
    rw [of_decide_eq_true heq] at hsome
    cases hsome
  refine swaps_of_filter_eq Call.network? ?_
  intro n
  cases n with
  | none => rw [hnone hexact, hnone hexact']
  | some n => exact hsame n

/-- **Streams of exact calls.**  However the updates and exact queries of different
    prefixes are interleaved, as long as those of each masked prefix come in the same
    order, the run ends in the same table, and the calls of each prefix get the same
    replies. -/
theorem interleaved_runs (calls calls' : List (Call A V))
    (hexact : ∀ call ∈ calls, call.network?.isSome = true)
    (hexact' : ∀ call ∈ calls', call.network?.isSome = true)
    (hsame : ∀ n, calls.filter (fun call => call.network? = some n)
      = calls'.filter fun call => call.network? = some n) :
    ∃ t replies replies', runCalls calls = .ok (t, replies)
      ∧ runCalls calls' = .ok (t, replies')
      ∧ ∀ n, (calls.zip replies).filter (fun e => e.1.network? = some n)
        = (calls'.zip replies').filter fun e => e.1.network? = some n := by
  obtain ⟨t, replies, hrun, -, -⟩ := run_represents calls
  have hlen := Run.length_replies hrun
  have hfst : (calls.zip replies).map Prod.fst = calls := List.map_fst_zip hlen.ge
  have hsnd : (calls.zip replies).map Prod.snd = replies := List.map_snd_zip hlen.le
  have hswaps := swaps_of_streams hexact hexact' hsame
  rw [← hfst] at hswaps
  -- the replies move with their calls
  obtain ⟨log', rfl, hlog⟩ := hswaps.exists_of_map
  have hindep : Swaps (fun a b => Independent a.1 b.1) (calls.zip replies) log' :=
    hlog.mono fun a ha b hb =>
      independent_of_ne (hexact _ (List.of_mem_zip ha).1) (hexact _ (List.of_mem_zip hb).1)
  have hlogged : Logged RouteMap.exec RouteMap.new (calls.zip replies) t := by
    rw [Logged, hfst, hsnd]
    exact hrun
  refine ⟨t, replies, _, hrun, (swapped_logs hindep t).mp hlogged, ?_⟩
  intro n
  have hzip : (log'.map Prod.fst).zip (log'.map Prod.snd) = log' :=
    (List.zip_of_prod rfl rfl).symm
  rw [hzip]
  refine hlog.filter_eq ?_
  rintro a b hne ⟨ha, hb⟩
  exact hne ((of_decide_eq_true ha).trans (of_decide_eq_true hb).symm)

/-- Two inserts in either order. -/
theorem interleaved_runs_two :
    ∃ t replies replies', runCalls [Call.insert tenEight 1, .insert tenSixteen 2] = .ok (t, replies)
      ∧ runCalls [Call.insert tenSixteen 2, .insert tenEight 1] = .ok (t, replies') := by
  have hsame : ∀ n, [Call.insert tenEight 1, .insert tenSixteen 2].filter
        (fun call => call.network? = some n)
      = [Call.insert tenSixteen 2, .insert tenEight 1].filter
        fun call => call.network? = some n := by
    intro n
    have hne : network tenEight ≠ network tenSixteen := by decide
    by_cases h : network tenEight = n
    · subst h
      simp [Call.network?, hne.symm]
    · by_cases h' : network tenSixteen = n <;> simp [Call.network?, h, h']
  obtain ⟨t, replies, replies', hrun, hrun', -⟩ :=
    interleaved_runs _ _ (by simp [Call.network?]) (by simp [Call.network?]) hsame
  exact ⟨t, replies, replies', hrun, hrun'⟩

end Routemap
