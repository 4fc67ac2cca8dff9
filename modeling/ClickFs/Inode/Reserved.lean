import ClickFs.Inode.Allocate

/-!
# The reserved inode numbers

`0` means "no entry" to the kernel, `1` is the root, and the numbers below 100 are kept
for the files the program may add. A probe begins at 100 or above and moves up, so it gives
out none of them before it has come to the top of the range (`reserved_not_returned`).

At the top the addition wraps. The next slot is then 0, which is vacant in every sound
table, and that is the number the path gets (`allocate_full`). The kernel reads that number
in a reply to `lookup` as a name that does not exist.

`allocate_reserved_iff` says when this happens: when the slots from the hash to the top all
hold other paths. A single path whose hash is the top is enough to fill that range, so the
case is rare but needs no large table.
-/

set_option autoImplicit false

namespace ClickFs

open Probe

namespace Inode

variable {hasher : PathBuf → UInt64} {table table' : InodeTable} {path : PathBuf}
  {ino ino' : UInt64}

/-- Nothing is stored under a reserved number but the root. -/
theorem Sound.vacant_zero (h : Sound hasher table) : table.forward 0 = none := by
  cases hslot : table.forward 0 with
  | none => rfl
  | some held =>
    rcases h.placed 0 held hslot with ⟨hroot, -⟩ | hhome
    · exact absurd hroot (by decide)
    · exact absurd hhome.reserved (by decide)

/-- Every slot from here to the top holds another path, so that a probe from here finds no room
    and no match. -/
def Full (table : InodeTable) (path : PathBuf) (ino : UInt64) : Prop :=
  ∀ i, ino.toNat ≤ i.toNat → ∃ held, table.forward i = some held ∧ held ≠ path

theorem Full.next (h : Full table path ino) (htop : ino.toNat + 1 < 2 ^ 64) :
    Full table path (ino + 1) := by
  intro i hi
  rw [toNat_succ htop] at hi
  exact h i (Nat.le_of_succ_le hi)

theorem allocateFrom_collision {fuel : Nat} {held : PathBuf} (hroot : ino ≠ inoRoot)
    (hheld : table.forward ino = some held) (hne : held ≠ path) :
    InodeTable.allocateFrom path (fuel + 1) table ino
      = InodeTable.allocateFrom path fuel table (ino + 1) := by
  rw [InodeTable.allocateFrom, InodeTable.probe, if_neg hroot, hheld]
  simp only [if_neg hne]

/-- A full range is walked to the top and over it. The induction is on the distance to the top. -/
theorem allocateFrom_full {fuel : Nat} : ∀ (m : Nat) {ino : UInt64},
    ino.toNat + (m + 1) = 2 ^ 64 → 100 ≤ ino.toNat → Full table path ino →
    InodeTable.allocateFrom path (fuel + (m + 1)) table ino
      = InodeTable.allocateFrom path fuel table 0 := by
  intro m
  induction m with
  | zero =>
    intro ino htop hlow hfull
    obtain ⟨held, hheld, hne⟩ := hfull ino (Nat.le_refl _)
    have hwrap : ino + 1 = 0 := by
      apply UInt64.toNat_inj.mp
      rw [UInt64.toNat_add, UInt64.toNat_one, htop]
      rfl
    rw [Nat.zero_add, allocateFrom_collision (ne_inoRoot_of_reserved hlow) hheld hne, hwrap]
  | succ m ih =>
    intro ino htop hlow hfull
    obtain ⟨held, hheld, hne⟩ := hfull ino (Nat.le_refl _)
    have hnext : (ino + 1).toNat = ino.toNat + 1 := toNat_succ (by omega)
    rw [← Nat.add_assoc, allocateFrom_collision (ne_inoRoot_of_reserved hlow) hheld hne]
    exact ih (by omega) (by omega) (hfull.next (by omega))

/-- **A full range gives out the number 0**, which is the next one after the top. -/
theorem allocate_full (hs : Sound hasher table) (hrev : table.reverse path = none)
    (hfull : Full table path (InodeTable.start hasher path)) :
    ∃ table', table.allocate hasher path = some (0, table') := by
  have hlow := start_reserved hasher path
  have hlt := (InodeTable.start hasher path).toNat_lt
  obtain ⟨m, hm⟩ : ∃ m, (InodeTable.start hasher path).toNat + (m + 1) = 2 ^ 64 :=
    ⟨2 ^ 64 - (InodeTable.start hasher path).toNat - 1, by omega⟩
  obtain ⟨fuel, hfuel⟩ : ∃ fuel, 2 ^ 64 = fuel + 1 + (m + 1) := ⟨2 ^ 64 - m - 2, by omega⟩
  have hzero : table.probe path 0
      = (.arrived 0, { table with forward := Function.update table.forward 0 (some path) }) := by
    rw [InodeTable.probe, if_neg (by decide), hs.vacant_zero]
  rw [InodeTable.allocate, hrev]
  simp only
  rw [hfuel, allocateFrom_full m hm hlow hfull, InodeTable.allocateFrom, hzero]
  exact ⟨_, rfl⟩

/-- A slot with room ends the walk there or before, and in either case at a number from the hash
    on. -/
theorem allocateFrom_room : ∀ (k : Nat) {fuel : Nat} {ino i : UInt64}, ino.toNat + k = i.toNat →
    100 ≤ ino.toNat → (∀ held, table.forward i = some held → held = path) →
    InodeTable.allocateFrom path fuel table ino = some (ino', table') → 100 ≤ ino'.toNat := by
  intro k
  induction k with
  | zero =>
    intro fuel ino i hi hlow hroom h
    obtain rfl : ino = i := UInt64.toNat_inj.mp hi
    cases fuel with
    | zero => cases h
    | succ fuel =>
      have hcase := probe_cases table path ino
      rw [InodeTable.allocateFrom] at h
      generalize table.probe path ino = turn at h hcase
      cases hcase with
      | atRoot hroot => exact absurd hroot (ne_inoRoot_of_reserved hlow)
      | collision _ hheld hne => exact absurd (hroom _ hheld) hne
      | found | vacant =>
        cases h
        exact hlow
  | succ k ih =>
    intro fuel ino i hi hlow hroom h
    cases fuel with
    | zero => cases h
    | succ fuel =>
      have hcase := probe_cases table path ino
      rw [InodeTable.allocateFrom] at h
      generalize table.probe path ino = turn at h hcase
      cases hcase with
      | atRoot hroot => exact absurd hroot (ne_inoRoot_of_reserved hlow)
      | collision =>
        have hlt := i.toNat_lt
        have hnext : (ino + 1).toNat = ino.toNat + 1 := toNat_succ (by omega)
        exact ih (by omega) (by omega) hroom h
      | found | vacant =>
        cases h
        exact hlow

/-- A new path gets a number from 100 on exactly when there is room between its hash and the
    top of the range. -/
theorem allocate_reserved_iff (hs : Sound hasher table) (hrev : table.reverse path = none)
    (h : table.allocate hasher path = some (ino, table')) :
    100 ≤ ino.toNat ↔ ¬ Full table path (InodeTable.start hasher path) := by
  constructor
  · intro hlow hfull
    obtain ⟨table₀, hzero⟩ := allocate_full hs hrev hfull
    rw [h] at hzero
    cases hzero
    exact absurd hlow (by decide)
  · intro hroom
    obtain ⟨i, hi, hfree⟩ : ∃ i : UInt64, (InodeTable.start hasher path).toNat ≤ i.toNat ∧
        ∀ held, table.forward i = some held → held = path := by
      by_contra hnone
      apply hroom
      intro i hi
      by_contra hfree
      exact hnone ⟨i, hi, fun held hheld => by_contra fun hne => hfree ⟨held, hheld, hne⟩⟩
    obtain ⟨k, hk⟩ := Nat.exists_eq_add_of_le hi
    simp only [InodeTable.allocate, hrev] at h
    exact allocateFrom_room k hk.symm (start_reserved hasher path) hfree h

/-! ## Runs -/

/-- No call has returned a reserved number for a path other than the root. -/
def NoneReserved (tr : List Returned) : Prop :=
  ∀ e ∈ tr, e.path ≠ .root → 100 ≤ e.ino.toNat

/-- **Reserved numbers are not handed out**, under every interleaving of any number of calls
    and for every hash function, as long as no probe steps past `u64::MAX`. -/
theorem reserved_not_returned {as : List Action} {tr : List Returned} {s : State}
    (h : (sys hasher).Exec .init as tr s) (hC : (sys hasher).Along NoWrap .init as) :
    NoneReserved tr := by
  intro e he hne
  obtain ⟨hinv, hslot⟩ := returned_slot h hC (Inv.init hasher)
  rcases hinv.table.placed e.ino e.path (hslot e he) with ⟨-, hroot⟩ | hhome
  · exact absurd hroot hne
  · exact hhome.reserved

theorem reserved_not_returned_race : ∃ s, (sys fun _ => 0).Exec .init race raceReturns s ∧
    NoneReserved raceReturns := by
  obtain ⟨s, hrun⟩ := exec_race
  exact ⟨s, hrun, reserved_not_returned hrun noWrap_race⟩

/-- The hash of both paths is the top of the range. -/
def topHash (_ : PathBuf) : UInt64 := 0xFFFF_FFFF_FFFF_FFFF

def twoAtTheTop : List Action :=
  [.call 0 (PathBuf.root.join "db"), .get 0, .probe 0, .record 0,
    .call 0 (PathBuf.root.join "x"), .get 0, .probe 0, .probe 0, .record 0]

theorem zero_returned :
    (sys topHash).Exec .init twoAtTheTop ((sys topHash).trace .init twoAtTheTop)
        ((sys topHash).final .init twoAtTheTop) ∧
      ⟨0, PathBuf.root.join "x", 0⟩ ∈ (sys topHash).trace .init twoAtTheTop ∧
      ¬ NoneReserved ((sys topHash).trace .init twoAtTheTop) := by
  have hzero : ⟨0, PathBuf.root.join "x", 0⟩ ∈ (sys topHash).trace .init twoAtTheTop := by decide
  refine ⟨Lts.exec_of_isSome rfl, hzero, fun hnone => ?_⟩
  exact absurd (hnone _ hzero (by decide)) (by decide)

end Inode
end ClickFs
