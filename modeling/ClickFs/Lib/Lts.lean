import Mathlib.Algebra.Order.Ring.Int
import Mathlib.Data.List.Basic

/-!
# Labelled transition systems given by an executable step

A component that takes steps under a schedule it does not choose: interleaved
threads, a task and its channel, a server answering requests. The step is a
*partial function* of the state and of the action the schedule picks next, so a
concrete schedule is run by evaluation (`run`), and a statement about every
schedule is an induction over `Exec`.

The induction is done here, once. A development states what one step does and
gets what a run does from

* `Exec.invariant` — a predicate every step keeps holds at the end of a run;
* `Exec.simulates` — a run is matched by an abstract machine reading its events;
* `Exec.project` — actions that only touch a hidden part of the state can be
  erased from the schedule;
* `Exec.purge` — so can those that are not observed;
* `Exec.refines` — a run is a run of the system below, step by step;
* `Exec.lockstep` — so is one that is matched up to a relation.

`Along` is for what holds of some runs only: a condition every step of *this* run
meets in the state it is taken from. `Exec.invariantAlong` and `Exec.eventsAlong`
are the rules under such a condition.

For what must happen there is a budget: `Exec.spends` bounds a run by it, and with
`exists_stuck` a system that can only stop in good states gets to one.
`Exec.conserves` is for what goes in by the actions and comes out by the events.
-/

set_option autoImplicit false

/-- A partial, executable step: the action is refused (`none`), or it moves the state and emits
    events. Nondeterminism is in the schedule and nowhere else: who moves next, and what comes
    from outside, is part of the action. -/
structure Lts (σ α ε : Type*) where
  step : σ → α → Option (σ × List ε)

namespace Lts

variable {σ α ε τ : Type*}

/-- Run a schedule, collecting the events. A refused action refuses the whole schedule, so a run
    never skips a step. -/
def run (M : Lts σ α ε) : σ → List α → Option (σ × List ε)
  | s, [] => some (s, [])
  | s, a :: as =>
    match M.step s a with
    | none => none
    | some (s₁, evs) =>
      match run M s₁ as with
      | none => none
      | some (s₂, tr) => some (s₂, evs ++ tr)

/-- `M.Exec s as tr s'`: the schedule `as` runs from `s` to `s'` and emits `tr`. Results are
    stated with it, and `run` is how a concrete one is found. -/
inductive Exec (M : Lts σ α ε) : σ → List α → List ε → σ → Prop
  | nil (s : σ) : Exec M s [] [] s
  | cons {s s₁ s₂ : σ} {a : α} {as : List α} {evs tr : List ε}
      (head : M.step s a = some (s₁, evs)) (tail : Exec M s₁ as tr s₂) :
      Exec M s (a :: as) (evs ++ tr) s₂

variable {M : Lts σ α ε}

theorem exec_of_run : ∀ {as : List α} {s s' : σ} {tr : List ε},
    M.run s as = some (s', tr) → M.Exec s as tr s' := by
  intro as
  induction as with
  | nil =>
    intro s s' tr h
    simp only [run, Option.some.injEq, Prod.mk.injEq] at h
    obtain ⟨rfl, rfl⟩ := h
    exact .nil s
  | cons a as ih =>
    intro s s' tr h
    simp only [run] at h
    split at h
    · exact absurd h (by simp)
    · rename_i s₁ evs hs
      split at h
      · exact absurd h (by simp)
      · rename_i s₂ tr₂ hr
        simp only [Option.some.injEq, Prod.mk.injEq] at h
        obtain ⟨rfl, rfl⟩ := h
        exact .cons hs (ih hr)

theorem Exec.run {s s' : σ} {as : List α} {tr : List ε} (h : M.Exec s as tr s') :
    M.run s as = some (s', tr) := by
  induction h with
  | nil s => rfl
  | cons head tail ih => simp [Lts.run, head, ih]

/-- The events of a schedule that runs. It is `[]` for one that does not, so a statement about it
    comes with an `Exec`. -/
def trace (M : Lts σ α ε) (s : σ) (as : List α) : List ε := (M.run s as).elim [] Prod.snd

/-- Where a schedule that runs ends, and the start for one that does not. -/
def final (M : Lts σ α ε) (s : σ) (as : List α) : σ := (M.run s as).elim s Prod.fst

/-- A concrete schedule is run by evaluating. What is left to decide is one Boolean, and the
    events and the last state are found by unfolding. -/
theorem exec_of_isSome {s : σ} {as : List α} (h : (M.run s as).isSome = true) :
    M.Exec s as (M.trace s as) (M.final s as) := by
  obtain ⟨⟨s', tr⟩, hr⟩ := Option.isSome_iff_exists.mp h
  rw [trace, final, hr]
  exact exec_of_run hr

/-- A schedule has one outcome, since the step is a function. -/
theorem Exec.unique {s s₁ s₂ : σ} {as : List α} {tr₁ tr₂ : List ε}
    (h₁ : M.Exec s as tr₁ s₁) (h₂ : M.Exec s as tr₂ s₂) : s₁ = s₂ ∧ tr₁ = tr₂ := by
  have h := h₁.run.symm.trans h₂.run
  simpa using h

theorem Exec.append {s s₁ s₂ : σ} {as bs : List α} {tr₁ tr₂ : List ε}
    (h₁ : M.Exec s as tr₁ s₁) (h₂ : M.Exec s₁ bs tr₂ s₂) :
    M.Exec s (as ++ bs) (tr₁ ++ tr₂) s₂ := by
  induction h₁ with
  | nil s => exact h₂
  | cons head tail ih =>
    rw [List.cons_append, List.append_assoc]
    exact .cons head (ih h₂)

theorem Exec.one {s s₁ : σ} {a : α} {evs : List ε} (h : M.step s a = some (s₁, evs)) :
    M.Exec s [a] evs s₁ := by
  have := Exec.cons h (.nil s₁)
  rwa [List.append_nil] at this

/-- A run of a concatenated schedule splits at the seam. With `Exec.append` this is how a property
    of a run is brought to the state in its middle. -/
theorem Exec.split {s s₂ : σ} {as bs : List α} {tr : List ε} (h : M.Exec s (as ++ bs) tr s₂) :
    ∃ s₁ tr₁ tr₂, tr = tr₁ ++ tr₂ ∧ M.Exec s as tr₁ s₁ ∧ M.Exec s₁ bs tr₂ s₂ := by
  induction as generalizing s tr with
  | nil => exact ⟨s, [], tr, rfl, .nil s, h⟩
  | cons a as ih =>
    cases h with
    | cons head tail =>
      obtain ⟨s₁, tr₁, tr₂, rfl, h₁, h₂⟩ := ih tail
      exact ⟨s₁, _, tr₂, (List.append_assoc ..).symm, .cons head h₁, h₂⟩

/-- Where a step emits one event at most, a run splits at an event: there is the state in which it
    was emitted, a run before it and a run after it. -/
theorem Exec.cut (hone : ∀ s a s₁ evs, M.step s a = some (s₁, evs) → evs.length ≤ 1)
    {s s' : σ} {as : List α} {tr tr₁ tr₂ : List ε} {e : ε} (h : M.Exec s as tr s')
    (htr : tr = tr₁ ++ e :: tr₂) :
    ∃ as₁ a as₂ s₁ s₂, as = as₁ ++ a :: as₂ ∧ M.Exec s as₁ tr₁ s₁ ∧
      M.step s₁ a = some (s₂, [e]) ∧ M.Exec s₂ as₂ tr₂ s' := by
  induction h generalizing tr₁ with
  | nil => simp at htr
  | @cons s s₀ s' a as evs tr head tail ih =>
    have hlater {tr₁' : List ε} (htr' : tr = tr₁' ++ e :: tr₂) :
        ∃ as₁ b as₂ s₁ s₂, a :: as = as₁ ++ b :: as₂ ∧ M.Exec s as₁ (evs ++ tr₁') s₁ ∧
          M.step s₁ b = some (s₂, [e]) ∧ M.Exec s₂ as₂ tr₂ s' := by
      obtain ⟨as₁, b, as₂, s₁, s₂, rfl, hbefore, hstep, hafter⟩ := ih htr'
      exact ⟨a :: as₁, b, as₂, s₁, s₂, rfl, .cons head hbefore, hstep, hafter⟩
    match evs, hone s a s₀ evs head with
    | [], _ => exact hlater htr
    | [e₀], _ =>
      -- the step's event is the one, or comes before it
      cases tr₁ with
      | nil =>
        rw [List.nil_append, List.singleton_append, List.cons.injEq] at htr
        obtain ⟨rfl, rfl⟩ := htr
        exact ⟨[], a, as, s, s₀, rfl, .nil s, head, tail⟩
      | cons e₁ tr₁ =>
        rw [List.singleton_append, List.cons_append, List.cons.injEq] at htr
        obtain ⟨rfl, htr⟩ := htr
        exact hlater htr

/-! ## What one step keeps, a run keeps -/

theorem Exec.invariant {I : σ → Prop}
    (hstep : ∀ s a s₁ evs, I s → M.step s a = some (s₁, evs) → I s₁)
    {s s' : σ} {as : List α} {tr : List ε} (h : M.Exec s as tr s') (hs : I s) : I s' := by
  induction h with
  | nil => exact hs
  | cons head tail ih => exact ih (hstep _ _ _ _ hs head)

/-- A predicate steps keep backwards: what holds at the end held all along. It is for what is lost
    once and for all, such as a resource being open. -/
theorem Exec.back {Q : σ → Prop}
    (hback : ∀ s a s₁ evs, M.step s a = some (s₁, evs) → Q s₁ → Q s)
    {s s' : σ} {as : List α} {tr : List ε} (h : M.Exec s as tr s') (hs : Q s') : Q s := by
  induction h with
  | nil => exact hs
  | cons head tail ih => exact hback _ _ _ _ head (ih hs)

/-- An abstract machine `δ` reads a list of events one by one. It has no schedule of its own, so
    what it allows is a statement about the events alone. -/
inductive Reads (δ : τ → ε → τ → Prop) : τ → List ε → τ → Prop
  | nil (t : τ) : Reads δ t [] t
  | cons {t t₁ t₂ : τ} {e : ε} {es : List ε} (head : δ t e t₁) (tail : Reads δ t₁ es t₂) :
      Reads δ t (e :: es) t₂

variable {δ : τ → ε → τ → Prop}

theorem Reads.one {t t₁ : τ} {e : ε} (h : δ t e t₁) : Reads δ t [e] t₁ := .cons h (.nil t₁)

theorem Reads.append {t t₁ t₂ : τ} {es₁ es₂ : List ε} (h₁ : Reads δ t es₁ t₁)
    (h₂ : Reads δ t₁ es₂ t₂) : Reads δ t (es₁ ++ es₂) t₂ := by
  induction h₁ with
  | nil => exact h₂
  | cons head tail ih => exact .cons head (ih h₂)

theorem Reads.split {t t₂ : τ} {es₁ es₂ : List ε} (h : Reads δ t (es₁ ++ es₂) t₂) :
    ∃ t₁, Reads δ t es₁ t₁ ∧ Reads δ t₁ es₂ t₂ := by
  induction es₁ generalizing t with
  | nil => exact ⟨t, .nil t, h⟩
  | cons e es₁ ih =>
    cases h with
    | cons head tail =>
      obtain ⟨t₁, h₁, h₂⟩ := ih tail
      exact ⟨t₁, .cons head h₁, h₂⟩

/-- **Simulation.** If every step's events can be read from a related abstract
    state, so can the whole run's. `Q` restricts the claim to runs that end in `Q`,
    for a `Q` that cannot be entered from outside. -/
theorem Exec.simulates {Q : σ → Prop} {R : σ → τ → Prop}
    (hback : ∀ s a s₁ evs, M.step s a = some (s₁, evs) → Q s₁ → Q s)
    (hstep : ∀ s t a s₁ evs, Q s₁ → R s t → M.step s a = some (s₁, evs) →
      ∃ t₁, Reads δ t evs t₁ ∧ R s₁ t₁)
    {s s' : σ} {as : List α} {tr : List ε} {t : τ} (h : M.Exec s as tr s') (hq : Q s')
    (hs : R s t) : ∃ t', Reads δ t tr t' ∧ R s' t' := by
  induction h generalizing t with
  | nil => exact ⟨t, .nil t, hs⟩
  | cons head tail ih =>
    obtain ⟨t₁, h₁, hR⟩ := hstep _ _ _ _ _ (tail.back hback hq) hs head
    obtain ⟨t', h', hR'⟩ := ih hq hR
    exact ⟨t', h₁.append h', hR'⟩

/-- **Hidden steps.** If the actions outside `vis` leave the view `π` of the state
    alone and emit nothing, and the visible ones act on the view as they act on
    the state, then a run seen through `π` is the run of its visible actions. Only
    the actions `P` the schedule uses have to be looked at. -/
theorem Exec.project {π : σ → σ} {vis : α → Bool} {P : α → Prop}
    (hidden : ∀ s a s₁ evs, P a → vis a = false → M.step s a = some (s₁, evs) →
      π s₁ = π s ∧ evs = [])
    (visible : ∀ s a s₁ evs, P a → vis a = true → M.step s a = some (s₁, evs) →
      M.step (π s) a = some (π s₁, evs))
    {s s' : σ} {as : List α} {tr : List ε} (h : M.Exec s as tr s') (hP : ∀ a ∈ as, P a) :
    M.Exec (π s) (as.filter vis) tr (π s') := by
  induction h with
  | nil s => exact .nil _
  | @cons s s₁ s₂ a as evs tr head tail ih =>
    have ha := hP a List.mem_cons_self
    have ih := ih fun b hb => hP b (List.mem_cons_of_mem _ hb)
    cases hv : vis a with
    | false =>
      obtain ⟨hπ, rfl⟩ := hidden s a s₁ evs ha hv head
      rw [List.filter_cons_of_neg (by simp [hv]), List.nil_append, ← hπ]
      exact ih
    | true =>
      rw [List.filter_cons_of_pos hv]
      exact .cons (visible s a s₁ evs ha hv head) ih

/-- **Unwinding.** If the actions outside `vis` keep a state related to one that stays
    behind and emit nothing that is observed, and the visible ones can be taken in the
    related state too, with the same observations, then the hidden ones can be left out
    of a schedule: what is observed of the run stays the same. -/
theorem Exec.purge {ω : Type*} {R : σ → σ → Prop} {vis : α → Bool} {P : α → Prop}
    {obs : ε → Option ω}
    (hidden : ∀ s t a s₁ evs, P a → vis a = false → R s t → M.step s a = some (s₁, evs) →
      R s₁ t ∧ evs.filterMap obs = [])
    (visible : ∀ s t a s₁ evs, P a → vis a = true → R s t → M.step s a = some (s₁, evs) →
      ∃ t₁ evs', M.step t a = some (t₁, evs') ∧ R s₁ t₁ ∧ evs'.filterMap obs = evs.filterMap obs)
    {s s' t : σ} {as : List α} {tr : List ε} (h : M.Exec s as tr s') (hP : ∀ a ∈ as, P a)
    (hs : R s t) :
    ∃ tr' t', M.Exec t (as.filter vis) tr' t' ∧ R s' t' ∧ tr'.filterMap obs = tr.filterMap obs := by
  induction h generalizing t with
  | nil s => exact ⟨[], t, .nil t, hs, rfl⟩
  | @cons s s₁ s₂ a as evs tr head tail ih =>
    have ha := hP a List.mem_cons_self
    have ih {t : σ} := ih (t := t) fun b hb => hP b (List.mem_cons_of_mem _ hb)
    cases hv : vis a with
    | false =>
      obtain ⟨hs₁, hobs⟩ := hidden s t a s₁ evs ha hv hs head
      obtain ⟨tr', t', hrun, hs', hobs'⟩ := ih hs₁
      rw [List.filter_cons_of_neg (by simp [hv]), List.filterMap_append, hobs, List.nil_append]
      exact ⟨tr', t', hrun, hs', hobs'⟩
    | true =>
      obtain ⟨t₁, evs', hstep, hs₁, hobs⟩ := visible s t a s₁ evs ha hv hs head
      obtain ⟨tr', t', hrun, hs', hobs'⟩ := ih hs₁
      rw [List.filter_cons_of_pos hv, List.filterMap_append, ← hobs, ← hobs']
      exact ⟨evs' ++ tr', t', .cons hstep hrun, hs', List.filterMap_append ..⟩

/-- **Refinement.** If every step is a run of the system below, so is every run. -/
theorem Exec.refines {σ' α' ε' : Type*} {N : Lts σ' α' ε'} {π : σ → σ'} {act : α → List α'}
    {obs : ε → List ε'}
    (hstep : ∀ s a s₁ evs, M.step s a = some (s₁, evs) →
      N.Exec (π s) (act a) (evs.flatMap obs) (π s₁))
    {s s' : σ} {as : List α} {tr : List ε} (h : M.Exec s as tr s') :
    N.Exec (π s) (as.flatMap act) (tr.flatMap obs) (π s') := by
  induction h with
  | nil s => exact .nil _
  | cons head tail ih =>
    rw [List.flatMap_cons, List.flatMap_append]
    exact (hstep _ _ _ _ head).append ih

/-- **Lockstep.** If a step is matched by one step of another system, with the same
    observations, then so is a run by a run. The relation may depend on what has been spent:
    the observations of a step have a price, and there is a limit to it. -/
theorem Exec.lockstep {σ' α' ε' ω : Type*} {N : Lts σ' α' ε'} {R : Nat → σ → σ' → Prop}
    (obs : ε → ω) (obs' : ε' → ω) (price : ω → Nat) (limit : Nat)
    (hstep : ∀ n s t a s₁ evs, R n s t → M.step s a = some (s₁, evs) →
      n + ((evs.map obs).map price).sum ≤ limit →
      ∃ b t₁ evs', N.step t b = some (t₁, evs') ∧ evs'.map obs' = evs.map obs ∧
        R (n + ((evs.map obs).map price).sum) s₁ t₁)
    {s s' : σ} {as : List α} {tr : List ε} {t : σ'} {n : Nat} (h : M.Exec s as tr s')
    (hR : R n s t) (hn : n + ((tr.map obs).map price).sum ≤ limit) :
    ∃ bs tr' t', N.Exec t bs tr' t' ∧ tr'.map obs' = tr.map obs ∧
      R (n + ((tr.map obs).map price).sum) s' t' := by
  induction h generalizing t n with
  | nil s => exact ⟨[], [], t, .nil t, rfl, hR⟩
  | @cons s s₁ s₂ a as evs tr head tail ih =>
    rw [List.map_append, List.map_append, List.sum_append, ← Nat.add_assoc] at hn ⊢
    obtain ⟨b, t₁, evs', head', hevs, hR₁⟩ :=
      hstep n s t a s₁ evs hR head (Nat.le_of_add_right_le hn)
    obtain ⟨bs, tr', t', tail', htr, hR₂⟩ := ih hR₁ hn
    exact ⟨b :: bs, evs' ++ tr', t', .cons head' tail', by
      rw [List.map_append, hevs, htr], hR₂⟩

/-! ## Conditions met along one run -/

/-- Every step of the schedule is taken in a state that meets `C`. The condition is on the run and
    not on the system, so it can be what separates the runs a property holds of from those it does
    not. -/
def Along (M : Lts σ α ε) (C : σ → α → Prop) : σ → List α → Prop
  | _, [] => True
  | s, a :: as => C s a ∧ ∀ s₁ evs, M.step s a = some (s₁, evs) → Along M C s₁ as

theorem Along.append {C : σ → α → Prop} {s s₁ : σ} {as bs : List α} {tr : List ε}
    (h : M.Exec s as tr s₁) :
    M.Along C s (as ++ bs) ↔ M.Along C s as ∧ M.Along C s₁ bs := by
  induction h with
  | nil s => simp [Along]
  | cons head tail ih =>
    constructor
    · rintro ⟨hc, hrest⟩
      have h := ih.mp (hrest _ _ head)
      refine ⟨⟨hc, fun s' evs' h' => ?_⟩, h.2⟩
      rw [head, Option.some.injEq, Prod.mk.injEq] at h'
      exact h'.1 ▸ h.1
    · rintro ⟨⟨hc, hrest⟩, hb⟩
      refine ⟨hc, fun s' evs' h' => ?_⟩
      have h := ih.mpr ⟨hrest _ _ head, hb⟩
      rw [head, Option.some.injEq, Prod.mk.injEq] at h'
      exact h'.1 ▸ h

/-- A condition met in every state of an invariant is met along the run, if the actions are of the
    kind the invariant needs. -/
theorem along_of_invariant {C : σ → α → Prop} {I : σ → Prop} {P : α → Prop}
    (hstep : ∀ s a s₁ evs, I s → P a → M.step s a = some (s₁, evs) → I s₁)
    (hC : ∀ s a, I s → P a → C s a) {as : List α} (hP : ∀ a ∈ as, P a) {s : σ} (hs : I s) :
    M.Along C s as := by
  induction as generalizing s with
  | nil => trivial
  | cons a as ih =>
    have ha := hP a List.mem_cons_self
    exact ⟨hC s a hs ha, fun s₁ evs h =>
      ih (fun b hb => hP b (List.mem_cons_of_mem _ hb)) (hstep s a s₁ evs hs ha h)⟩

theorem along_of_forall {C : σ → α → Prop} {as : List α} (h : ∀ a ∈ as, ∀ s, C s a) (s : σ) :
    M.Along C s as :=
  along_of_invariant (I := fun _ => True) (fun _ _ _ _ _ _ _ => trivial) (fun s _ _ ha => ha s)
    h trivial

/-- An invariant of the state and of the event log, kept by the steps meeting `C`. The log is what
    came before, so the invariant may say where something in the state came from. -/
theorem Exec.logAlong {I : σ → List ε → Prop} {C : σ → α → Prop}
    (hstep : ∀ s a s₁ evs log, I s log → C s a → M.step s a = some (s₁, evs) →
      I s₁ (log ++ evs))
    {s s' : σ} {as : List α} {tr log : List ε} (h : M.Exec s as tr s')
    (hC : M.Along C s as) (hs : I s log) : I s' (log ++ tr) := by
  induction h generalizing log with
  | nil => rwa [List.append_nil]
  | cons head tail ih =>
    rw [← List.append_assoc]
    exact ih (hC.2 _ _ head) (hstep _ _ _ _ _ hs hC.1 head)

theorem Exec.invariantAlong {I : σ → Prop} {C : σ → α → Prop}
    (hstep : ∀ s a s₁ evs, I s → C s a → M.step s a = some (s₁, evs) → I s₁)
    {s s' : σ} {as : List α} {tr : List ε} (h : M.Exec s as tr s') (hC : M.Along C s as)
    (hs : I s) : I s' := by
  induction h with
  | nil => exact hs
  | cons head tail ih => exact ih (hC.2 _ _ head) (hstep _ _ _ _ hs hC.1 head)

/-- Under an invariant kept by the steps meeting `C`, every event of the run is one such a step
    may emit. -/
theorem Exec.eventsAlong {I : σ → Prop} {C : σ → α → Prop} {P : ε → Prop}
    (hstep : ∀ s a s₁ evs, I s → C s a → M.step s a = some (s₁, evs) →
      I s₁ ∧ ∀ e ∈ evs, P e)
    {s s' : σ} {as : List α} {tr : List ε} (h : M.Exec s as tr s')
    (hC : M.Along C s as) (hs : I s) : ∀ e ∈ tr, P e := by
  induction h with
  | nil => intro e he; exact absurd he (by simp)
  | cons head tail ih =>
    obtain ⟨h₁, hev⟩ := hstep _ _ _ _ hs hC.1 head
    intro e he
    rcases List.mem_append.mp he with he | he
    · exact hev e he
    · exact ih (hC.2 _ _ head) h₁ e he

/-! ## The same run, differently driven -/

/-- Two schedules of one length. Where the first one takes an action, the second has one that
    is as good there, by `C`. -/
def Matched (M : Lts σ α ε) (C : σ → α → α → Prop) : σ → List α → List α → Prop
  | _, [], [] => True
  | s, a :: as, b :: bs => C s a b ∧ ∀ s₁ evs, M.step s a = some (s₁, evs) → Matched M C s₁ as bs
  | _, _, _ => False

/-- If an action that is as good does the same to the state and is observed alike, the second
    schedule runs where the first one does, and is observed alike. -/
theorem Exec.matched {ω : Type*} {I : σ → Prop} {C : σ → α → α → Prop} {obs : ε → ω}
    (hstep : ∀ s a b s₁ evs, I s → C s a b → M.step s a = some (s₁, evs) →
      I s₁ ∧ ∃ evs', M.step s b = some (s₁, evs') ∧ evs'.map obs = evs.map obs)
    {s s' : σ} {as bs : List α} {tr : List ε} (h : M.Exec s as tr s') (hI : I s)
    (hC : M.Matched C s as bs) : ∃ tr', M.Exec s bs tr' s' ∧ tr'.map obs = tr.map obs := by
  induction h generalizing bs with
  | nil s =>
    cases bs with
    | nil => exact ⟨[], .nil s, rfl⟩
    | cons b bs => exact hC.elim
  | @cons s s₁ s₂ a as evs tr head tail ih =>
    cases bs with
    | nil => exact hC.elim
    | cons b bs =>
      obtain ⟨hone, hrest⟩ := hC
      obtain ⟨hI₁, evs', head', hevs⟩ := hstep s a b s₁ evs hI hone head
      obtain ⟨tr', tail', htr⟩ := ih hI₁ (hrest s₁ evs head)
      exact ⟨evs' ++ tr', .cons head' tail', by rw [List.map_append, List.map_append, hevs, htr]⟩

/-! ## What a run has been through -/

/-- The states a schedule goes through, the first and the last among them. A condition on all of
    them is how an environment is spoken of that changes during a run. -/
def Visited (M : Lts σ α ε) (s : σ) (as : List α) (s₁ : σ) : Prop :=
  ∃ as₁ as₂ tr₁, as = as₁ ++ as₂ ∧ M.Exec s as₁ tr₁ s₁

theorem Visited.here (s : σ) (as : List α) : M.Visited s as s := ⟨[], as, [], rfl, .nil s⟩

theorem Visited.cons {s s₁ s₂ : σ} {a : α} {as : List α} {evs : List ε}
    (head : M.step s a = some (s₁, evs)) (h : M.Visited s₁ as s₂) : M.Visited s (a :: as) s₂ := by
  obtain ⟨as₁, as₂, tr₁, rfl, hrun⟩ := h
  exact ⟨a :: as₁, as₂, evs ++ tr₁, rfl, .cons head hrun⟩

/-- `eventsAlong` for what is known of the states a run goes through: whatever holds of
    all of them may be used where a step is taken. -/
theorem Exec.historyAlong {H I : σ → Prop} {C : σ → α → Prop} {P : ε → Prop}
    (hstep : ∀ s a s₁ evs, H s → I s → C s a → M.step s a = some (s₁, evs) →
      I s₁ ∧ ∀ e ∈ evs, P e)
    {s s' : σ} {as : List α} {tr : List ε} (h : M.Exec s as tr s')
    (hH : ∀ x, M.Visited s as x → H x) (hC : M.Along C s as) (hs : I s) : ∀ e ∈ tr, P e := by
  induction h with
  | nil => intro e he; exact absurd he (by simp)
  | @cons s s₀ s' a as evs tr head tail ih =>
    obtain ⟨h₀, hevs⟩ := hstep s a s₀ evs (hH s (.here s _)) hs hC.1 head
    intro e he
    rcases List.mem_append.mp he with he | he
    · exact hevs e he
    · exact ih (fun x hx => hH x (hx.cons head)) (hC.2 _ _ head) h₀ e he

/-! ## What goes in comes out -/

/-- **Conservation, in order.** What an action brings queues up behind what the state
    keeps, and the events take it from the front. -/
theorem Exec.conserves {β : Type*} {kept : σ → List β} {inp : α → List β} {out : ε → List β}
    {I : σ → Prop}
    (hstep : ∀ s a s₁ evs, I s → M.step s a = some (s₁, evs) →
      I s₁ ∧ kept s ++ inp a = evs.flatMap out ++ kept s₁)
    {s s' : σ} {as : List α} {tr : List ε} (h : M.Exec s as tr s') (hI : I s) :
    kept s ++ as.flatMap inp = tr.flatMap out ++ kept s' := by
  induction h with
  | nil s => simp
  | @cons s s₁ s₂ a as evs tr head tail ih =>
    obtain ⟨hI₁, hone⟩ := hstep s a s₁ evs hI head
    rw [List.flatMap_cons, List.flatMap_append, List.append_assoc, ← ih hI₁, ← List.append_assoc,
      ← List.append_assoc, hone]

/-- Nothing comes out that did not go in, and not more often, if no single step gives out more
    than it gets. -/
theorem Exec.sublist {β : Type*} {inp : α → List β} {out : ε → List β}
    (hstep : ∀ s a s₁ evs, M.step s a = some (s₁, evs) → (evs.flatMap out).Sublist (inp a))
    {s s' : σ} {as : List α} {tr : List ε} (h : M.Exec s as tr s') :
    (tr.flatMap out).Sublist (as.flatMap inp) := by
  induction h with
  | nil s => exact .slnil
  | cons head tail ih =>
    rw [List.flatMap_append, List.flatMap_cons]
    exact (hstep _ _ _ _ head).append ih

open scoped List in
/-- **Conservation, in any order.** What the events bring and what the state kept is what the
    events take and what the state keeps. -/
theorem Exec.accounts {β : Type*} {kept : σ → List β} {inp out : ε → List β} {I : σ → Prop}
    (hstep : ∀ s a s₁ evs, I s → M.step s a = some (s₁, evs) →
      I s₁ ∧ evs.flatMap inp ++ kept s ~ evs.flatMap out ++ kept s₁)
    {s s' : σ} {as : List α} {tr : List ε} (h : M.Exec s as tr s') (hI : I s) :
    I s' ∧ tr.flatMap inp ++ kept s ~ tr.flatMap out ++ kept s' := by
  induction h with
  | nil s => exact ⟨hI, .refl _⟩
  | @cons s s₁ s₂ a as evs tr head tail ih =>
    obtain ⟨hI₁, hone⟩ := hstep s a s₁ evs hI head
    obtain ⟨hI₂, hrest⟩ := ih hI₁
    refine ⟨hI₂, ?_⟩
    rw [List.flatMap_append, List.flatMap_append, List.append_assoc, List.append_assoc]
    calc evs.flatMap inp ++ (tr.flatMap inp ++ kept s)
      _ ~ tr.flatMap inp ++ (evs.flatMap inp ++ kept s) := List.perm_append_comm_assoc ..
      _ ~ tr.flatMap inp ++ (evs.flatMap out ++ kept s₁) := hone.append_left _
      _ ~ evs.flatMap out ++ (tr.flatMap inp ++ kept s₁) := List.perm_append_comm_assoc ..
      _ ~ evs.flatMap out ++ (tr.flatMap out ++ kept s₂) := hrest.append_left _

/-! ## Runs that end -/

/-- **A budget.** `R s n`: in `s` there is `n` to spend. If every step pays its `price` out
    of it and brings no more than its `income`, the run has paid no more than what it had
    and what came in. With price one it is a bound on the length. -/
theorem Exec.spends {R : σ → Nat → Prop} {I : σ → Prop} {price income : α → Nat}
    (hstep : ∀ s a s₁ evs n, I s → R s n → M.step s a = some (s₁, evs) →
      I s₁ ∧ ∃ n₁, R s₁ n₁ ∧ n₁ + price a ≤ n + income a)
    {s s' : σ} {as : List α} {tr : List ε} {n : Nat} (h : M.Exec s as tr s') (hI : I s)
    (hs : R s n) : ∃ n', R s' n' ∧ n' + (as.map price).sum ≤ n + (as.map income).sum := by
  induction h generalizing n with
  | nil s => exact ⟨n, hs, by simp⟩
  | @cons s s₁ s₂ a as evs tr head tail ih =>
    obtain ⟨hI₁, n₁, h₁, hle₁⟩ := hstep s a s₁ evs n hI hs head
    obtain ⟨n₂, h₂, hle₂⟩ := ih hI₁ h₁
    refine ⟨n₂, h₂, ?_⟩
    simp only [List.map_cons, List.sum_cons]
    omega

/-- Where only the actions of one kind have a price, it is paid that often. With `Exec.spends`
    this counts the steps of one party by those of another. -/
theorem sum_price (p : α → Bool) (k : Nat) (as : List α) :
    (as.map fun a => if p a then k else 0).sum = k * as.countP p := by
  induction as with
  | nil => rfl
  | cons a as ih =>
    rw [List.map_cons, List.sum_cons, ih, List.countP_cons, Nat.mul_add, Nat.add_comm]
    cases p a <;> simp

/-- No action of `P` can be taken. The system is at rest as far as `P` goes, and may wait for
    something else. -/
def Stuck (M : Lts σ α ε) (P : α → Prop) (s : σ) : Prop := ∀ a, P a → M.step s a = none

/-- With a budget and no income every state has a run to where nothing is left to do: as long as
    some action of `P` can be taken, take it, and the budget goes down. -/
theorem exists_stuck {R : σ → Nat → Prop} {I : σ → Prop} {P : α → Prop}
    (hstep : ∀ s a s₁ evs n, I s → R s n → P a → M.step s a = some (s₁, evs) →
      I s₁ ∧ ∃ n₁, R s₁ n₁ ∧ n₁ + 1 ≤ n)
    (n : Nat) {s : σ} (hI : I s) (hs : R s n) :
    ∃ as tr s', (∀ a ∈ as, P a) ∧ M.Exec s as tr s' ∧ I s' ∧ M.Stuck P s' := by
  induction n using Nat.strong_induction_on generalizing s with
  | _ n ih =>
    by_cases hstuck : M.Stuck P s
    · exact ⟨[], [], s, by simp, .nil s, hI, hstuck⟩
    · unfold Stuck at hstuck
      push Not at hstuck
      obtain ⟨a, ha, hsome⟩ := hstuck
      obtain ⟨⟨s₁, evs⟩, head⟩ := Option.ne_none_iff_exists'.mp hsome
      obtain ⟨hI₁, n₁, h₁, hlt⟩ := hstep s a s₁ evs n hI hs ha head
      obtain ⟨as, tr, s', hP, hrun, hend⟩ := ih n₁ hlt hI₁ h₁
      refine ⟨a :: as, evs ++ tr, s', ?_, .cons head hrun, hend⟩
      intro b hb
      rcases List.mem_cons.mp hb with rfl | hb
      · exact ha
      · exact hP b hb

end Lts
