/-
  Routemap.Lib.Run

  Runs of a machine that answers calls and may fault.  `exec` takes one call in
  a state and returns the next state and the reply; `run` takes a list of calls.

  A machine is compared with an abstract one, which is a transition function
  `next` on states of its own and a relation `Answer` that says which replies
  are right.  `run_refines` lifts a simulation from one call to whole runs;
  `run_refines_while` does so for a machine that is only right up to a bound on
  something that never shrinks.
-/
namespace Run

variable {ε σ τ ι ρ : Type}

/-- Run a list of calls: the state it ends in, and the reply to each call. -/
def run (exec : σ → ι → Except ε (σ × ρ)) : σ → List ι → Except ε (σ × List ρ)
  | s, [] => pure (s, [])
  | s, call :: calls => do
    let (s, reply) ← exec s call
    let (s, replies) ← run exec s calls
    pure (s, reply :: replies)

/-- Every reply is right in the abstract state its call was taken in. -/
def Answers (next : τ → ι → τ) (Answer : τ → ι → ρ → Prop) : τ → List ι → List ρ → Prop
  | _, [], [] => True
  | m, call :: calls, reply :: replies =>
    Answer m call reply ∧ Answers next Answer (next m call) calls replies
  | _, _, _ => False

section Run

variable {exec : σ → ι → Except ε (σ × ρ)} {s s' : σ} {replies : List ρ}

theorem run_nil : run exec s [] = .ok (s, []) := rfl

theorem run_cons {call : ι} {calls : List ι} {t : σ} {reply : ρ}
    (h : exec s call = .ok (t, reply)) (h' : run exec t calls = .ok (s', replies)) :
    run exec s (call :: calls) = .ok (s', reply :: replies) := by
  rw [run, h]
  show (do let (s, replies) ← run exec t calls; pure (s, reply :: replies)) = _
  rw [h']
  rfl

/-- A run that returns has returned from its first call. -/
theorem run_cons_inv {call : ι} {calls : List ι}
    (h : run exec s (call :: calls) = .ok (s', replies)) :
    ∃ t reply rest, exec s call = .ok (t, reply) ∧ run exec t calls = .ok (s', rest)
      ∧ replies = reply :: rest := by
  cases hexec : exec s call with
  | error e =>
      rw [run, hexec] at h
      cases h
  | ok out =>
      obtain ⟨t, reply⟩ := out
      cases hrun : run exec t calls with
      | error e =>
          rw [run, hexec] at h
          change (run exec t calls >>= _) = _ at h
          rw [hrun] at h
          cases h
      | ok out =>
          obtain ⟨s'', rest⟩ := out
          rw [run_cons hexec hrun] at h
          cases h
          exact ⟨t, reply, rest, rfl, hrun, rfl⟩

theorem run_append {calls calls' : List ι} {t : σ} {replies' : List ρ}
    (h : run exec s calls = .ok (t, replies)) (h' : run exec t calls' = .ok (s', replies')) :
    run exec s (calls ++ calls') = .ok (s', replies ++ replies') := by
  induction calls generalizing s replies with
  | nil =>
      cases h
      exact h'
  | cons call calls ih =>
      obtain ⟨s₁, reply, rest, hexec, htail, rfl⟩ := run_cons_inv h
      exact run_cons hexec (ih htail)

/-- A run of calls in two parts is a run of each. -/
theorem run_append_inv {calls calls' : List ι}
    (h : run exec s (calls ++ calls') = .ok (s', replies)) :
    ∃ t before after, run exec s calls = .ok (t, before) ∧ run exec t calls' = .ok (s', after)
      ∧ replies = before ++ after := by
  induction calls generalizing s replies with
  | nil => exact ⟨s, [], replies, run_nil, h, rfl⟩
  | cons call calls ih =>
      obtain ⟨s₁, reply, rest, hexec, htail, rfl⟩ := run_cons_inv h
      obtain ⟨t, before, after, hbefore, hafter, rfl⟩ := ih htail
      exact ⟨t, reply :: before, after, run_cons hexec hbefore, hafter, rfl⟩

/-- Two properties of the places of a run hold everywhere together, if they agree at each
    place before which the second has held. -/
theorem forall_iff_of_before {P Q : Nat → Prop} (h : ∀ i, (∀ j < i, Q j) → (P i ↔ Q i)) :
    (∀ i, P i) ↔ ∀ i, Q i := by
  refine ⟨?_, fun hQ i => (h i fun j _ => hQ j).mpr (hQ i)⟩
  intro hP i
  induction i using Nat.strongRecOn with
  | _ i ih => exact (h i ih).mp (hP i)

/-- There is a reply to each call. -/
theorem length_replies {calls : List ι} (h : run exec s calls = .ok (s', replies)) :
    replies.length = calls.length := by
  induction calls generalizing s replies with
  | nil =>
      cases h
      rfl
  | cons call calls ih =>
      obtain ⟨t, reply, rest, -, hrest, rfl⟩ := run_cons_inv h
      rw [List.length_cons, List.length_cons, ih hrest]

/-- **Two machines side by side.**  Where the second can answer each call as the
    first did, it can answer a run so.  As in `run_refines_while`, `Inv` holds
    whatever happens, and the rest only while the first machine is `Good`. -/
theorem run_simulates_while {υ : Type} {exec' : υ → ι → Except ε (υ × ρ)} {Inv Good : σ → Prop}
    {R : σ → υ → Prop}
    (hstep : ∀ s call s' reply, Inv s → exec s call = .ok (s', reply) →
      Inv s' ∧ (Good s' → Good s) ∧ ∀ t, R s t → Good s' →
        ∃ t', exec' t call = .ok (t', reply) ∧ R s' t')
    {calls : List ι} (hs : Inv s) (hrun : run exec s calls = .ok (s', replies)) :
    Inv s' ∧ (Good s' → Good s) ∧ ∀ t, R s t → Good s' →
      ∃ t', run exec' t calls = .ok (t', replies) ∧ R s' t' := by
  induction calls generalizing s replies with
  | nil =>
      cases hrun
      exact ⟨hs, id, fun t ht _ => ⟨t, run_nil, ht⟩⟩
  | cons call calls ih =>
      obtain ⟨s₁, reply, rest, hexec, htail, rfl⟩ := run_cons_inv hrun
      obtain ⟨hs₁, hback, hsim⟩ := hstep s call s₁ reply hs hexec
      obtain ⟨hs', hback', hsim'⟩ := ih hs₁ htail
      refine ⟨hs', hback ∘ hback', ?_⟩
      intro t ht hgood
      obtain ⟨t₁, hexec', ht₁⟩ := hsim t ht (hback' hgood)
      obtain ⟨t', hrun', ht'⟩ := hsim' t₁ ht₁ hgood
      exact ⟨t', run_cons hexec' hrun', ht'⟩

variable {Inv R : σ → τ → Prop} {Good : σ → Prop} {next : τ → ι → τ} {Answer : τ → ι → ρ → Prop}
  {m : τ}

/-- **Simulation rule for a bounded machine.**  Under an invariant every step
    returns; the relation to the abstract state, and the replies, are only promised
    while the machine is `Good`, which no step restores. -/
theorem run_refines_while
    (hstep : ∀ s m call, Inv s m → ∃ s' reply, exec s call = .ok (s', reply)
      ∧ Inv s' (next m call) ∧ (Good s' → Good s)
      ∧ (R s m → Good s' → R s' (next m call) ∧ Answer m call reply))
    (hs : Inv s m) (calls : List ι) :
    ∃ s' replies, run exec s calls = .ok (s', replies) ∧ Inv s' (calls.foldl next m)
      ∧ (Good s' → Good s)
      ∧ (R s m → Good s' →
          R s' (calls.foldl next m) ∧ Answers next Answer m calls replies) := by
  induction calls generalizing s m with
  | nil => exact ⟨s, [], run_nil, hs, id, fun hR _ => ⟨hR, trivial⟩⟩
  | cons call calls ih =>
      obtain ⟨t, reply, hexec, ht, hback, hsim⟩ := hstep s m call hs
      obtain ⟨s', replies, hrun, hs', hback', hsim'⟩ := ih ht
      refine ⟨s', reply :: replies, run_cons hexec hrun, hs', hback ∘ hback', ?_⟩
      intro hR hgood
      obtain ⟨hR', hreply⟩ := hsim hR (hback' hgood)
      obtain ⟨hend, hreplies⟩ := hsim' hR' hgood
      exact ⟨hend, hreply, hreplies⟩

/-- **Simulation rule.**  A relation that every step keeps, with a right reply, is
    kept by every run, and no run faults. -/
theorem run_refines
    (hstep : ∀ s m call, R s m → ∃ s' reply, exec s call = .ok (s', reply)
      ∧ R s' (next m call) ∧ Answer m call reply)
    (hR : R s m) (calls : List ι) :
    ∃ s' replies, run exec s calls = .ok (s', replies) ∧ R s' (calls.foldl next m)
      ∧ Answers next Answer m calls replies := by
  have hstep' : ∀ s m call, R s m → ∃ s' reply, exec s call = .ok (s', reply)
      ∧ R s' (next m call) ∧ (True → True)
      ∧ (R s m → True → R s' (next m call) ∧ Answer m call reply) := by
    intro s m call hR
    obtain ⟨s', reply, hexec, hR', hreply⟩ := hstep s m call hR
    exact ⟨s', reply, hexec, hR', id, fun _ _ => ⟨hR', hreply⟩⟩
  obtain ⟨s', replies, hrun, hR', -, hsim⟩ :=
    run_refines_while hstep' hR calls
  exact ⟨s', replies, hrun, hsim hR trivial⟩

end Run

section Answers

variable {next : τ → ι → τ} {Answer : τ → ι → ρ → Prop} {m : τ} {calls : List ι}

/-- The reply to the call at `i` is right in the state after the first `i` calls. -/
theorem Answers.get {replies : List ρ} (h : Answers next Answer m calls replies) {i : Nat}
    {call : ι} (hcall : calls[i]? = some call) :
    ∃ reply, replies[i]? = some reply ∧ Answer ((calls.take i).foldl next m) call reply := by
  induction calls generalizing m replies i with
  | nil => cases hcall
  | cons c calls ih =>
      cases replies with
      | nil => exact h.elim
      | cons r replies =>
          cases i with
          | zero =>
              cases hcall
              exact ⟨r, rfl, h.1⟩
          | succ i => exact ih h.2 hcall

/-- Replies to translated calls are replies to the calls. -/
theorem answers_map {κ : Type} (f : κ → ι) {calls : List κ} {replies : List ρ} :
    Answers next Answer m (calls.map f) replies
      ↔ Answers (fun m call => next m (f call)) (fun m call => Answer m (f call)) m calls
          replies := by
  induction calls generalizing m replies with
  | nil => cases replies <;> rfl
  | cons call calls ih =>
      cases replies with
      | nil => rfl
      | cons reply replies => exact and_congr_right fun _ => ih

/-- Where a call has one right reply, a run has one right list of replies. -/
theorem Answers.unique (huniq : ∀ m call r r', Answer m call r → Answer m call r' → r = r')
    {replies replies' : List ρ} (h : Answers next Answer m calls replies)
    (h' : Answers next Answer m calls replies') : replies = replies' := by
  induction calls generalizing m replies replies' with
  | nil =>
      cases replies with
      | cons r rs => exact h.elim
      | nil =>
          cases replies' with
          | cons r rs => exact h'.elim
          | nil => rfl
  | cons c calls ih =>
      cases replies with
      | nil => exact h.elim
      | cons r rs =>
          cases replies' with
          | nil => exact h'.elim
          | cons r' rs' => rw [huniq m c r r' h.1 h'.1, ih h.2 h'.2]

/-- **Two machines for one abstract one.**  Where a call has one right reply, machines
    that both simulate the abstract one reply the same. -/
theorem run_agree {υ : Type} {exec : σ → ι → Except ε (σ × ρ)} {exec' : υ → ι → Except ε (υ × ρ)}
    {R : σ → τ → Prop} {S : υ → τ → Prop}
    (hstep : ∀ s m call, R s m → ∃ s' reply, exec s call = .ok (s', reply)
      ∧ R s' (next m call) ∧ Answer m call reply)
    (hstep' : ∀ t m call, S t m → ∃ t' reply, exec' t call = .ok (t', reply)
      ∧ S t' (next m call) ∧ Answer m call reply)
    (huniq : ∀ m call r r', Answer m call r → Answer m call r' → r = r') {s : σ} {t : υ}
    (hR : R s m) (hS : S t m) (calls : List ι) :
    ∃ s' t' replies, run exec s calls = .ok (s', replies)
      ∧ run exec' t calls = .ok (t', replies)
      ∧ R s' (calls.foldl next m) ∧ S t' (calls.foldl next m) := by
  obtain ⟨s', replies, hrun, hs', hreplies⟩ := run_refines hstep hR calls
  obtain ⟨t', replies', hrun', ht', hreplies'⟩ := run_refines hstep' hS calls
  rw [hreplies'.unique huniq hreplies] at hrun'
  exact ⟨s', t', replies, hrun, hrun', hs', ht'⟩

end Answers
end Run
