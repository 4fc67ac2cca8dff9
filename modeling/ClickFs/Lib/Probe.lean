import Mathlib.Logic.Function.Basic

/-!
# Linear probing

A key looks for its slot by skipping the slots that hold another key. Entries are
added and never changed (`Extends`), so a slot that was skipped once would be skipped
again by everybody who looks for the same key, at any time. That is the whole argument
for a table that several threads fill without a lock: whoever arrives at a slot with
the key in it, or places the key in a vacant one, has arrived at the only slot the key
can be in (`Skips.unique`).
-/

set_option autoImplicit false

namespace Probe

variable {ι κ : Type*}

/-- Entries are added and never changed. This is the order in which the states of such a table
    come, and every fact below is kept along it. -/
def Extends (slot slot' : ι → Option κ) : Prop := ∀ i k, slot i = some k → slot' i = some k

theorem Extends.refl (slot : ι → Option κ) : Extends slot slot := fun _ _ h => h

theorem Extends.trans {slot₁ slot₂ slot₃ : ι → Option κ} (h₁ : Extends slot₁ slot₂)
    (h₂ : Extends slot₂ slot₃) : Extends slot₁ slot₃ := fun i k h => h₂ i k (h₁ i k h)

theorem extends_update [DecidableEq ι] {slot : ι → Option κ} {i : ι} (h : slot i = none) (k : κ) :
    Extends slot (Function.update slot i (some k)) := by
  intro j k' hj
  have hne : j ≠ i := by
    rintro rfl
    rw [h] at hj
    cases hj
  rwa [Function.update_of_ne hne]

/-- `k` gets from one slot to another by skipping slots that hold other keys. It is the path of a
    probe, and it is about one state of the table. -/
inductive Skips (next : ι → ι) (slot : ι → Option κ) (k : κ) : ι → ι → Prop
  | here (i : ι) : Skips next slot k i i
  | skip {i j : ι} {k' : κ} (held : slot i = some k') (other : k' ≠ k)
      (rest : Skips next slot k (next i) j) : Skips next slot k i j

variable {next : ι → ι} {slot slot' : ι → Option κ} {k : κ} {i j l : ι}

/-- A slot skipped once stays skipped: the entry that was in the way is never changed, so the path
    of a probe that was interrupted is still a path later on. -/
theorem Skips.mono (h : Skips next slot k i j) (hext : Extends slot slot') :
    Skips next slot' k i j := by
  induction h with
  | here i => exact .here i
  | skip held other _ ih => exact .skip (hext _ _ held) other ih

theorem Skips.snoc {k' : κ} (h : Skips next slot k i j) (held : slot j = some k') (other : k' ≠ k) :
    Skips next slot k i (next j) := by
  induction h with
  | here i => exact .skip held other (.here _)
  | skip held' other' _ ih => exact .skip held' other' (ih held)

/-- Nobody skips his own slot: the slot of `k` lies at the end of every way there. So two that
    look for the same key, at different times, find the same slot. -/
theorem Skips.unique (hi : Skips next slot k l i) (hj : Skips next slot k l j)
    (hki : slot i = some k) (hkj : slot j = some k) : i = j := by
  induction hi with
  | here i =>
    cases hj with
    | here => rfl
    | skip held other _ =>
      rw [hki] at held
      exact absurd (Option.some.inj held).symm other
  | skip held other _ ih =>
    cases hj with
    | here =>
      rw [hkj] at held
      exact absurd (Option.some.inj held).symm other
    | skip _ _ rest => exact ih rest hki

end Probe
