/-
  Routemap.Lib.Trace

  Runs up to the order of independent calls.

  * `Swaps Indep l l'`: `l'` comes from `l` by exchanging neighbours that `Indep`
    allows to be exchanged.  Lists with the same subsequence of each key differ by
    exchanges of elements with different keys (`swaps_of_filter_eq`).
  * `Logged exec s log s'`: the run of the calls of `log` from `s` returns, ends in
    `s'` and gives the replies of `log`.  Where independent calls commute, a log
    stays one under exchanges (`Swaps.logged`).
  * `Footprint`: for a machine on maps, the keys each call writes, and the keys that
    what it writes and replies depends on.  Calls whose footprints do not meet
    commute, also in a machine that refines the one on maps (`Footprint.commute`).
-/
import Routemap.Lib.Run
import Mathlib.Data.List.Basic

namespace Trace

/-! ## Exchanges -/

section Swaps

variable {α : Type} {Indep : α → α → Prop}

/-- Exchanging neighbours, any number of times. -/
inductive Swaps (Indep : α → α → Prop) : List α → List α → Prop where
  | refl (l : List α) : Swaps Indep l l
  | swap (before after : List α) {a b : α} (h : Indep a b) :
      Swaps Indep (before ++ a :: b :: after) (before ++ b :: a :: after)
  | trans {l l' l'' : List α} (h : Swaps Indep l l') (h' : Swaps Indep l' l'') :
      Swaps Indep l l''

theorem Swaps.symm (hsymm : ∀ a b, Indep a b → Indep b a) {l l' : List α}
    (h : Swaps Indep l l') : Swaps Indep l' l := by
  induction h with
  | refl l => exact .refl l
  | swap before after h => exact .swap before after (hsymm _ _ h)
  | trans _ _ ih ih' => exact .trans ih' ih

theorem Swaps.cons (a : α) {l l' : List α} (h : Swaps Indep l l') :
    Swaps Indep (a :: l) (a :: l') := by
  induction h with
  | refl l => exact .refl _
  | swap before after h => exact .swap (a :: before) after h
  | trans _ _ ih ih' => exact .trans ih ih'

/-- An element goes past others that it is independent of. -/
theorem swaps_past {a : α} (before after : List α) (h : ∀ b ∈ before, Indep a b) :
    Swaps Indep (a :: (before ++ after)) (before ++ a :: after) := by
  induction before with
  | nil => exact .refl _
  | cons b before ih =>
      have hb : Indep a b := h b (List.mem_cons_self ..)
      have hrest := ih fun c hc => h c (List.mem_cons_of_mem _ hc)
      exact .trans (.swap [] (before ++ after) hb) (hrest.cons b)

/-- **Projections determine a list up to exchanges.**  Lists in which the elements of
    each key come in the same order differ by exchanges of different keys. -/
theorem swaps_of_filter_eq {κ : Type} [DecidableEq κ] (key : α → κ) {l l' : List α}
    (h : ∀ k, l.filter (fun a => key a = k) = l'.filter fun a => key a = k) :
    Swaps (fun a b => key a ≠ key b) l l' := by
  induction l generalizing l' with
  | nil =>
      cases l' with
      | nil => exact .refl _
      | cons b l' =>
          have hb := h (key b)
          simp at hb
  | cons a l ih =>
      -- the first element of this key in `l'` is `a` as well
      have ha := h (key a)
      rw [List.filter_cons_of_pos (by simp)] at ha
      obtain ⟨before, after, rfl, hbefore, -, hafter⟩ := List.filter_eq_cons_iff.mp ha.symm
      have hne : ∀ b ∈ before, key a ≠ key b := by
        intro b hb heq
        exact hbefore b hb (by simp [heq])
      refine .trans ((ih ?_).cons a) (swaps_past before after hne)
      intro k
      by_cases hk : key a = k
      · subst hk
        rw [List.filter_append, hafter, List.filter_eq_nil_iff.mpr hbefore, List.nil_append]
      · have hrest := h k
        rwa [List.filter_cons_of_neg (by simpa using hk), List.filter_append,
          List.filter_cons_of_neg (by simpa using hk), ← List.filter_append] at hrest

/-- An exchange keeps the order of the elements that may not be exchanged. -/
theorem Swaps.filter_eq {p : α → Bool} (hdep : ∀ a b, Indep a b → ¬ (p a = true ∧ p b = true))
    {l l' : List α} (h : Swaps Indep l l') : l.filter p = l'.filter p := by
  induction h with
  | refl => rfl
  | @swap before after a b hindep =>
      have hnot := hdep a b hindep
      rw [List.filter_append, List.filter_append]
      congr 1
      cases ha : p a <;> cases hb : p b <;> simp_all
  | trans _ _ ih ih' => exact ih.trans ih'

/-- Exchanges of the images are exchanges of the elements. -/
theorem Swaps.exists_of_map {β : Type} (f : β → α) {log : List β} {l' : List α}
    (h : Swaps Indep (log.map f) l') :
    ∃ log', log'.map f = l' ∧ Swaps (fun a b => Indep (f a) (f b)) log log' := by
  generalize hl : log.map f = l at h
  induction h generalizing log with
  | refl => exact ⟨log, hl, .refl log⟩
  | swap before after hindep =>
      obtain ⟨before, rest, rfl, rfl, hab⟩ := List.map_eq_append_iff.mp hl
      obtain ⟨a, rest, rfl, rfl, hb⟩ := List.map_eq_cons_iff.mp hab
      obtain ⟨b, after, rfl, rfl, rfl⟩ := List.map_eq_cons_iff.mp hb
      exact ⟨before ++ b :: a :: after, by simp, .swap before after hindep⟩
  | trans _ _ ih ih' =>
      obtain ⟨log₁, h₁, hswap₁⟩ := ih hl
      obtain ⟨log₂, h₂, hswap₂⟩ := ih' h₁
      exact ⟨log₂, h₂, .trans hswap₁ hswap₂⟩

theorem Swaps.mem_iff {l l' : List α} (h : Swaps Indep l l') (a : α) : a ∈ l ↔ a ∈ l' := by
  induction h with
  | refl => rfl
  | swap before after =>
      rw [List.mem_append, List.mem_append, List.mem_cons, List.mem_cons, List.mem_cons,
        List.mem_cons, or_left_comm (a := a = _)]
  | trans _ _ ih ih' => exact ih.trans ih'

/-- Of an independence it matters what it says of the elements of the list. -/
theorem Swaps.mono {Indep' : α → α → Prop} {l l' : List α} (h : Swaps Indep l l')
    (himp : ∀ a ∈ l, ∀ b ∈ l, Indep a b → Indep' a b) : Swaps Indep' l l' := by
  induction h with
  | refl l => exact .refl l
  | swap before after hindep => exact .swap before after (himp _ (by simp) _ (by simp) hindep)
  | trans h h' ih ih' =>
      refine .trans (ih himp) (ih' ?_)
      intro a ha b hb
      exact himp a ((h.mem_iff a).mpr ha) b ((h.mem_iff b).mpr hb)

end Swaps

/-! ## Logs -/

section Logged

variable {ε σ τ ι ρ : Type} {exec : σ → ι → Except ε (σ × ρ)} {s s' : σ}

/-- The calls of a log, run from `s`, end in `s'` and get the replies of the log. -/
def Logged (exec : σ → ι → Except ε (σ × ρ)) (s : σ) (log : List (ι × ρ)) (s' : σ) : Prop :=
  Run.run exec s (log.map Prod.fst) = .ok (s', log.map Prod.snd)

theorem logged_cons {call : ι} {reply : ρ} {log : List (ι × ρ)} :
    Logged exec s ((call, reply) :: log) s' ↔
      ∃ t, exec s call = .ok (t, reply) ∧ Logged exec t log s' := by
  refine ⟨?_, ?_⟩
  · intro h
    obtain ⟨t, reply', rest, hexec, hrun, heq⟩ := Run.run_cons_inv h
    obtain ⟨rfl, rfl⟩ := List.cons.inj heq
    exact ⟨t, hexec, hrun⟩
  · rintro ⟨t, hexec, hrun⟩
    exact Run.run_cons hexec hrun

theorem logged_append {log log' : List (ι × ρ)} :
    Logged exec s (log ++ log') s' ↔ ∃ t, Logged exec s log t ∧ Logged exec t log' s' := by
  induction log generalizing s with
  | nil =>
      refine ⟨fun h => ⟨s, Run.run_nil, h⟩, ?_⟩
      rintro ⟨t, h, h'⟩
      cases h
      exact h'
  | cons entry log ih =>
      obtain ⟨call, reply⟩ := entry
      rw [List.cons_append, logged_cons]
      refine ⟨?_, ?_⟩
      · rintro ⟨t, hexec, hrest⟩
        obtain ⟨u, hlog, hlog'⟩ := ih.mp hrest
        exact ⟨u, logged_cons.mpr ⟨t, hexec, hlog⟩, hlog'⟩
      · rintro ⟨u, hlog, hlog'⟩
        obtain ⟨t, hexec, hrest⟩ := logged_cons.mp hlog
        exact ⟨t, hexec, ih.mpr ⟨u, hrest, hlog'⟩⟩

/-- `a` and then `b` from a state has the effect and the replies of `b` and then `a`. -/
def Commutes (exec : σ → ι → Except ε (σ × ρ)) (s : σ) (a b : ι) : Prop :=
  ∀ t r s' r', exec s a = .ok (t, r) → exec t b = .ok (s', r') →
    ∃ t', exec s b = .ok (t', r') ∧ exec t' a = .ok (s', r)

theorem logged_invariant {Inv : σ → Prop}
    (hinv : ∀ s call s' reply, Inv s → exec s call = .ok (s', reply) → Inv s')
    {log : List (ι × ρ)} (hs : Inv s) (h : Logged exec s log s') : Inv s' := by
  induction log generalizing s with
  | nil =>
      cases h
      exact hs
  | cons entry log ih =>
      obtain ⟨call, reply⟩ := entry
      obtain ⟨t, hexec, hrest⟩ := logged_cons.mp h
      exact ih (hinv _ _ _ _ hs hexec) hrest

/-- **A log up to exchanges.**  Where independent calls commute, exchanging them in a
    log leaves every reply and the last state as they are. -/
theorem Swaps.logged {Inv : σ → Prop} {Indep : ι → ι → Prop}
    (hinv : ∀ s call s' reply, Inv s → exec s call = .ok (s', reply) → Inv s')
    (hcomm : ∀ s a b, Inv s → Indep a b → Commutes exec s a b) {log log' : List (ι × ρ)}
    (h : Swaps (fun a b => Indep a.1 b.1) log log') (hs : Inv s) (hlog : Logged exec s log s') :
    Logged exec s log' s' := by
  induction h generalizing s s' with
  | refl => exact hlog
  | @swap before after a b hindep =>
      obtain ⟨t, hbefore, hrest⟩ := logged_append.mp hlog
      obtain ⟨u, ha, hrest⟩ := logged_cons.mp hrest
      obtain ⟨w, hb, hafter⟩ := logged_cons.mp hrest
      have ht := logged_invariant hinv hs hbefore
      obtain ⟨u', hb', ha'⟩ := hcomm t a.1 b.1 ht hindep _ _ _ _ ha hb
      exact logged_append.mpr
        ⟨t, hbefore, logged_cons.mpr ⟨u', hb', logged_cons.mpr ⟨w, ha', hafter⟩⟩⟩
  | trans _ _ ih ih' => exact ih' hs (ih hs hlog)

/-! ## Footprints -/

/-- The keys a call writes, and those that what it writes and replies depends on, for
    a machine whose states are maps. -/
structure Footprint {K α : Type} (next : (K → α) → ι → K → α)
    (Answer : (K → α) → ι → ρ → Prop) where
  Writes : ι → K → Prop
  Reads : ι → K → Prop
  /-- What is not written stays. -/
  frame : ∀ m call k, ¬ Writes call k → next m call k = m k
  /-- What is written is decided by what is read. -/
  written : ∀ m m' call k, (∀ j, Reads call j → m j = m' j) → Writes call k →
    next m call k = next m' call k
  /-- The reply is decided by what is read. -/
  answered : ∀ m m' call reply, (∀ j, Reads call j → m j = m' j) → Answer m call reply →
    Answer m' call reply

namespace Footprint

variable {K α : Type} {next : (K → α) → ι → K → α} {Answer : (K → α) → ι → ρ → Prop}
  (fp : Footprint next Answer)

/-- Neither call writes what the other one reads or writes. -/
structure Indep (a b : ι) : Prop where
  left : ∀ k, fp.Writes a k → ¬ fp.Reads b k ∧ ¬ fp.Writes b k
  right : ∀ k, fp.Writes b k → ¬ fp.Reads a k

variable {fp} {a b : ι}

theorem Indep.symm (h : fp.Indep a b) : fp.Indep b a where
  left k hk := ⟨h.right k hk, fun ha => (h.left k ha).2 hk⟩
  right k hk := (h.left k hk).1

/-- A call sees the same map before and after one that is independent of it. -/
theorem Indep.read_eq (h : fp.Indep a b) (m : K → α) (k : K) (hk : fp.Reads b k) :
    next m a k = m k :=
  fp.frame m a k fun ha => (h.left k ha).1 hk

theorem Indep.next_comm (h : fp.Indep a b) (m : K → α) :
    next (next m a) b = next (next m b) a := by
  funext k
  by_cases ha : fp.Writes a k
  · -- `b` leaves this key, and `a` writes the same in both maps
    rw [fp.frame _ b k (h.left k ha).2]
    exact fp.written _ _ a k (fun j hj => (h.symm.read_eq m j hj).symm) ha
  · rw [fp.frame _ a k ha]
    by_cases hb : fp.Writes b k
    · exact fp.written _ _ b k (fun j hj => h.read_eq m j hj) hb
    · rw [fp.frame _ b k hb, fp.frame _ a k ha, fp.frame _ b k hb]

/-- **Commutation rule.**  In a machine that refines the one on maps, where a map has
    one state and a call one right reply, calls with disjoint footprints commute. -/
theorem commute {R : σ → (K → α) → Prop}
    (hstep : ∀ s m call, R s m → ∃ s' reply, exec s call = .ok (s', reply)
      ∧ R s' (next m call) ∧ Answer m call reply)
    (hstate : ∀ s s' m, R s m → R s' m → s = s')
    (hreply : ∀ m call r r', Answer m call r → Answer m call r' → r = r')
    (h : fp.Indep a b) {m : K → α} (hs : R s m) : Commutes exec s a b := by
  intro t r u r' ha hb
  obtain ⟨t₁, r₁, ha₁, ht₁, hr₁⟩ := hstep s m a hs
  cases ha.symm.trans ha₁
  obtain ⟨u₁, r₂, hb₁, hu₁, hr₂⟩ := hstep t (next m a) b ht₁
  cases hb.symm.trans hb₁
  -- the other order, with the replies that are right there
  obtain ⟨t', q', hb', ht', hq'⟩ := hstep s m b hs
  obtain ⟨u', q, ha', hu', hq⟩ := hstep t' (next m b) a ht'
  have hrb : q' = r' :=
    hreply m b q' r' hq' (fp.answered _ _ b r' (fun k hk => h.read_eq m k hk) hr₂)
  have hra : q = r :=
    hreply m a q r (fp.answered _ _ a q (fun k hk => h.symm.read_eq m k hk) hq) hr₁
  rw [← h.next_comm] at hu'
  cases hstate u' u _ hu' hu₁
  rw [hrb] at hb'
  rw [hra] at ha'
  exact ⟨t', hb', ha'⟩

end Footprint
end Logged
end Trace
