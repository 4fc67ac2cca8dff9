import Mathlib.Data.Finset.Card
import ClickFs.Inode

/-!
# One call of `allocate`

What the file system gets from a call: it is a run of the machine (`exec_allocate`), it
returns a slot its path is in and adds no other entry (`allocate_allocated`), and it
returns at all (`allocate_ends`). The file system above is modelled one request after the
other, and these three are all it uses of the table.

For the last one the table has to have room. A table with fewer than `2 ^ 62` entries has,
wherever the hash points and even where the probe wraps around: the loop meets the root
once at most, and jumps on from there by the counter. The bound is far more than any
memory holds, and no part of the code checks it, so it stays a hypothesis wherever the
file system is asked to answer.
-/

set_option autoImplicit false

namespace ClickFs

open Probe

namespace Inode

/-! ## One thread -/

/-- `allocate` called by one thread is the machine run by that thread. The induction is on the
    fuel, one turn of the loop to one step of the machine. -/
theorem exec_allocateFrom {hasher : PathBuf → UInt64} {path : PathBuf} {t : Tid} :
    ∀ (fuel : Nat) (s : State) (ino ino' : UInt64) (table : InodeTable),
    s.threads t = .probing path ino →
    InodeTable.allocateFrom path fuel s.table ino = some (ino', table) →
    ∃ as s', (sys hasher).Exec s as [⟨t, path, ino'⟩] s' ∧ s'.table = table := by
  intro fuel
  induction fuel with
  | zero => intro s ino ino' table _ h; cases h
  | succ fuel ih =>
    intro s ino ino' table hth h
    rw [InodeTable.allocateFrom] at h
    split at h
    · rename_i ino₁ table₁ hprobe
      have hstep : (sys hasher).step s (.probe t)
          = some ({ s.setThread t (.probing path ino₁) with table := table₁ }, []) := by
        simp only [sys, step, hth, hprobe]
      obtain ⟨as, s', hrun, htable⟩ := ih { s.setThread t (.probing path ino₁) with table := table₁ }
        ino₁ ino' table (Function.update_self ..) h
      exact ⟨_, s', .cons hstep hrun, htable⟩
    · rename_i ino₁ table₁ hprobe
      obtain ⟨rfl, rfl⟩ := Prod.mk.inj (Option.some.inj h)
      let s₁ : State := { s.setThread t (.recording path ino₁) with table := table₁ }
      have hstep : (sys hasher).step s (.probe t) = some (s₁, []) := by
        simp only [sys, step, hth, hprobe, s₁]
      have hrecord : (sys hasher).step s₁ (.record t)
          = some ({ s₁.setThread t .idle with table := table₁.record path ino₁ },
              [⟨t, path, ino₁⟩]) := by
        have hth₁ : s₁.threads t = .recording path ino₁ := Function.update_self ..
        simp only [sys, step, hth₁]
        rfl
      exact ⟨_, _, .cons hstep (.one hrecord), rfl⟩

theorem exec_allocate {hasher : PathBuf → UInt64} {path : PathBuf} {t : Tid} {s : State}
    {ino : UInt64} {table : InodeTable} (hidle : s.threads t = .idle)
    (h : s.table.allocate hasher path = some (ino, table)) :
    ∃ as s', (sys hasher).Exec s as [⟨t, path, ino⟩] s' ∧ s'.table = table := by
  let s₁ : State := s.setThread t (.looking path)
  have hcall : (sys hasher).step s (.call t path) = some (s₁, []) := by
    simp only [sys, step, hidle, s₁]
  have hth : s₁.threads t = .looking path := Function.update_self ..
  unfold InodeTable.allocate at h
  split at h
  · rename_i existing hrev
    obtain ⟨rfl, rfl⟩ := Prod.mk.inj (Option.some.inj h)
    have hget : (sys hasher).step s₁ (.get t) = some (s₁.setThread t .idle, [⟨t, path, existing⟩]) := by
      have hrev₁ : s₁.table.reverse path = some existing := hrev
      simp only [sys, step, hth, hrev₁]
    exact ⟨_, _, .cons hcall (.one hget), rfl⟩
  · rename_i hrev
    let s₂ : State := s₁.setThread t (.probing path (InodeTable.start hasher path))
    have hget : (sys hasher).step s₁ (.get t) = some (s₂, []) := by
      have hrev₁ : s₁.table.reverse path = none := hrev
      simp only [sys, step, hth, hrev₁, s₂]
    obtain ⟨as, s', hrun, htable⟩ := exec_allocateFrom (2 ^ 64) s₂ _ ino table
      (Function.update_self ..) h
    exact ⟨_, s', .cons hcall (.cons hget hrun), htable⟩

/-! ## What one call does to the table -/

/-- Everything a call of `allocate` may do to the table: it returns a slot the path is in, and no
    entry but that one is new. -/
structure Allocated (table : InodeTable) (path : PathBuf) (ino : UInt64) (table' : InodeTable) :
    Prop where
  slot : table'.forward ino = some path
  extend : Extends table.forward table'.forward
  only : ∀ i p, table'.forward i = some p → table.forward i = some p ∨ (i = ino ∧ p = path)
  reverse : table'.reverse path = some ino
  keep : Extends table.reverse table'.reverse

/-- The reverse map agrees with the forward map. Weaker than `Sound`, and true in every state
    without any condition on the hashes, so that the file system can rely on it in every run. -/
def Agrees (table : InodeTable) : Prop :=
  ∀ path ino, table.reverse path = some ino → table.forward ino = some path

theorem Agrees.new : Agrees .new := (Sound.new fun _ => 0).back

theorem Agrees.record {table : InodeTable} {path : PathBuf} {ino : UInt64} (h : Agrees table)
    (hslot : table.forward ino = some path) : Agrees (table.record path ino) := by
  intro p i hp
  by_cases hpath : p = path
  · subst hpath
    simp only [InodeTable.record, Function.update_self, Option.some.injEq] at hp
    exact hp ▸ hslot
  · simp only [InodeTable.record, Function.update_of_ne hpath] at hp
    exact h p i hp

theorem allocateFrom_allocated {path : PathBuf} : ∀ (fuel : Nat) {table table' : InodeTable}
    {ino ino' : UInt64}, table.reverse path = none →
    InodeTable.allocateFrom path fuel table ino = some (ino', table') →
    Allocated table path ino' table' ∧ (Agrees table → Agrees table') := by
  intro fuel
  induction fuel with
  | zero => intro table table' ino ino' _ h; cases h
  | succ fuel ih =>
    intro table table' ino ino' hnone h
    have hcase := probe_cases table path ino
    rw [InodeTable.allocateFrom] at h
    generalize table.probe path ino = turn at h hcase
    cases hcase with
    | atRoot hroot =>
      have hbumped : { table with bump := table.bump + 1 : InodeTable }.reverse path = none := hnone
      obtain ⟨hall, hagrees⟩ := ih hbumped h
      exact ⟨⟨hall.slot, hall.extend, hall.only, hall.reverse, hall.keep⟩, fun ha => hagrees ha⟩
    | collision hroot hheld hne => exact ih hnone h
    | found hslot =>
      obtain ⟨rfl, rfl⟩ := Prod.mk.inj (Option.some.inj h)
      exact ⟨⟨hslot, .refl _, fun i p hp => .inl hp, Function.update_self ..,
        extends_update hnone ino⟩, fun ha => ha.record hslot⟩
    | vacant hslot =>
      obtain ⟨rfl, rfl⟩ := Prod.mk.inj (Option.some.inj h)
      have hext := extends_update hslot path
      have hnew : Function.update table.forward ino (some path) ino = some path :=
        Function.update_self ..
      refine ⟨⟨hnew, hext, fun i p hp => ?_, Function.update_self .., extends_update hnone ino⟩,
        fun ha => ?_⟩
      · by_cases hi : i = ino
        · subst hi
          simp only [InodeTable.record, Function.update_self, Option.some.injEq] at hp
          exact .inr ⟨rfl, hp.symm⟩
        · simp only [InodeTable.record, Function.update_of_ne hi] at hp
          exact .inl hp
      · exact Agrees.record (fun p i hp => hext _ _ (ha p i hp)) hnew

/-- A path that has an inode keeps it, and nothing changes. -/
theorem allocate_of_reverse {hasher : PathBuf → UInt64} {table : InodeTable} {path : PathBuf}
    {ino : UInt64} (h : table.reverse path = some ino) :
    table.allocate hasher path = some (ino, table) := by
  simp only [InodeTable.allocate, h]

theorem allocate_allocated {hasher : PathBuf → UInt64} {path : PathBuf} {table table' : InodeTable}
    {ino : UInt64} (ha : Agrees table) (h : table.allocate hasher path = some (ino, table')) :
    Allocated table path ino table' ∧ Agrees table' := by
  unfold InodeTable.allocate at h
  split at h
  · rename_i existing hrev
    obtain ⟨rfl, rfl⟩ := Prod.mk.inj (Option.some.inj h)
    exact ⟨⟨ha _ _ hrev, .refl _, fun i p hp => .inl hp, hrev, .refl _⟩, ha⟩
  · rename_i hrev
    obtain ⟨hall, hagrees⟩ := allocateFrom_allocated _ hrev h
    exact ⟨hall, hagrees ha⟩

/-! ## The loop ends -/

/-- At most `n` slots are taken, and the root was met at most `n` times. Each call adds one to
    either at most. -/
structure Small (n : Nat) (table : InodeTable) : Prop where
  taken : ∃ slots : Finset UInt64, slots.card ≤ n ∧ ∀ i, table.forward i ≠ none → i ∈ slots
  bump : table.bump.toNat ≤ n

theorem Small.new : Small 1 .new := by
  refine ⟨⟨{inoRoot}, le_rfl, fun i hi => ?_⟩, Nat.zero_le _⟩
  by_contra hne
  rw [Finset.mem_singleton] at hne
  apply hi
  simp only [InodeTable.new, Function.update_of_ne hne]

theorem Small.mono {n m : Nat} {table : InodeTable} (h : Small n table) (hnm : n ≤ m) :
    Small m table := by
  obtain ⟨slots, hcard, hslots⟩ := h.taken
  exact ⟨⟨slots, hcard.trans hnm, hslots⟩, h.bump.trans hnm⟩

/-- There is a vacant slot among any `n + 1` consecutive ones. Pigeonhole; the slots have to lie
    below the top so that they are different. -/
theorem Small.vacant {n : Nat} {table : InodeTable} (h : Small n table) {base : Nat}
    (hbase : base + n < 2 ^ 64) : ∃ k, k ≤ n ∧ table.forward (UInt64.ofNat (base + k)) = none := by
  obtain ⟨slots, hcard, hslots⟩ := h.taken
  by_contra hnone
  have hall : ∀ k ∈ Finset.range (n + 1), UInt64.ofNat (base + k) ∈ slots := fun k hk =>
    hslots _ fun hv => hnone ⟨k, Nat.lt_succ_iff.mp (Finset.mem_range.mp hk), hv⟩
  have hinj : Set.InjOn (fun k => UInt64.ofNat (base + k)) (Finset.range (n + 1)) := by
    intro k hk l hl hkl
    have hk : k < n + 1 := by simpa using hk
    have hl : l < n + 1 := by simpa using hl
    have := congrArg UInt64.toNat hkl
    simp only at this
    rw [UInt64.toNat_ofNat_of_lt' (by show base + k < 2 ^ 64; omega),
      UInt64.toNat_ofNat_of_lt' (by show base + l < 2 ^ 64; omega)] at this
    omega
  have := Finset.card_le_card_of_injOn _ hall hinj
  rw [Finset.card_range] at this
  omega

theorem toNat_succ {ino : UInt64} (h : ino.toNat + 1 < 2 ^ 64) : (ino + 1).toNat = ino.toNat + 1 := by
  rw [UInt64.toNat_add, UInt64.toNat_one, Nat.mod_eq_of_lt h]

/-- A vacant slot `k` ahead ends the loop in as many turns. -/
theorem allocateFrom_of_vacant (path : PathBuf) : ∀ (k fuel : Nat) (table : InodeTable)
    (ino : UInt64), k < fuel → 2 ≤ ino.toNat → ino.toNat + k < 2 ^ 64 →
    table.forward (UInt64.ofNat (ino.toNat + k)) = none →
    ∃ i table', InodeTable.allocateFrom path fuel table ino = some (i, table') ∧
      table'.bump = table.bump := by
  intro k
  induction k with
  | zero =>
    intro fuel table ino hfuel _ _ hvacant
    obtain ⟨fuel, rfl⟩ := Nat.exists_eq_add_of_lt hfuel
    rw [Nat.add_zero, UInt64.ofNat_toNat] at hvacant
    have hcase := probe_cases table path ino
    rw [Nat.zero_add, InodeTable.allocateFrom]
    generalize table.probe path ino = turn at hcase
    cases hcase with
    | atRoot hroot => subst hroot; exact absurd ‹2 ≤ inoRoot.toNat› (by decide)
    | collision _ hheld _ => rw [hvacant] at hheld; cases hheld
    | found | vacant => exact ⟨_, _, rfl, rfl⟩
  | succ k ih =>
    intro fuel table ino hfuel hlow htop hvacant
    obtain ⟨fuel, rfl⟩ : ∃ f, fuel = f + 1 := ⟨fuel - 1, by omega⟩
    have hcase := probe_cases table path ino
    rw [InodeTable.allocateFrom]
    generalize table.probe path ino = turn at hcase
    cases hcase with
    | atRoot hroot => subst hroot; exact absurd hlow (by decide)
    | found | vacant => exact ⟨_, _, rfl, rfl⟩
    | collision _ _ _ =>
      have hnext : (ino + 1).toNat = ino.toNat + 1 := toNat_succ (by omega)
      refine ih fuel table (ino + 1) (by omega) (by omega) (by omega) ?_
      rwa [hnext, Nat.add_assoc, Nat.add_comm 1 k]

/-- Without one before the top of the range the loop wraps around, and has changed nothing but the
    counter. -/
theorem allocateFrom_wraps (path : PathBuf) (fuel : Nat) (table : InodeTable) : ∀ (m : Nat)
    (ino : UInt64), ino.toNat + (m + 1) = 2 ^ 64 → 2 ≤ ino.toNat →
    (∃ i table', InodeTable.allocateFrom path (fuel + (m + 1)) table ino = some (i, table') ∧
      table'.bump = table.bump) ∨
    InodeTable.allocateFrom path (fuel + (m + 1)) table ino
      = InodeTable.allocateFrom path fuel table 0 := by
  intro m
  induction m with
  | zero =>
    intro ino htop hlow
    have hcase := probe_cases table path ino
    rw [Nat.zero_add, InodeTable.allocateFrom]
    generalize table.probe path ino = turn at hcase
    cases hcase with
    | atRoot hroot => subst hroot; exact absurd hlow (by decide)
    | found | vacant => exact .inl ⟨_, _, rfl, rfl⟩
    | collision _ _ _ =>
      have hwrap : ino + 1 = 0 := by
        apply UInt64.toNat_inj.mp
        rw [UInt64.toNat_add, UInt64.toNat_one, show ino.toNat + 1 = 2 ^ 64 by omega]
        rfl
      rw [hwrap]
      exact .inr rfl
  | succ m ih =>
    intro ino htop hlow
    have hcase := probe_cases table path ino
    rw [← Nat.add_assoc, InodeTable.allocateFrom]
    generalize table.probe path ino = turn at hcase
    cases hcase with
    | atRoot hroot => subst hroot; exact absurd hlow (by decide)
    | found | vacant => exact .inl ⟨_, _, rfl, rfl⟩
    | collision _ _ _ =>
      have hnext : (ino + 1).toNat = ino.toNat + 1 := toNat_succ (by omega)
      exact ih (ino + 1) (by omega) (by omega)

/-- The loop ends, and meets the root once at most: either before the top of the range, or after
    one wrap. -/
theorem allocateFrom_ends {path : PathBuf} {n : Nat} {table : InodeTable} {ino : UInt64}
    (h : Small n table) (hn : n < 2 ^ 62) (hlow : 2 ≤ ino.toNat) :
    ∃ i table', InodeTable.allocateFrom path (2 ^ 64) table ino = some (i, table') ∧
      table'.bump.toNat ≤ n + 1 := by
  have hbump := h.bump
  by_cases hroom : ino.toNat + n < 2 ^ 64
  · obtain ⟨k, hk, hvacant⟩ := h.vacant hroom
    obtain ⟨i, table', hall, hb⟩ :=
      allocateFrom_of_vacant path k (2 ^ 64) table ino (by omega) hlow (by omega) hvacant
    exact ⟨i, table', hall, by rw [hb]; omega⟩
  · -- around the top: slot 0, then the root's jump
    have hlt := ino.toNat_lt
    obtain ⟨m, hm⟩ : ∃ m, ino.toNat + (m + 1) = 2 ^ 64 := ⟨2 ^ 64 - ino.toNat - 1, by omega⟩
    obtain ⟨fuel, hfuel⟩ : ∃ fuel, 2 ^ 64 = fuel + 2 + (m + 1) := ⟨2 ^ 64 - m - 3, by omega⟩
    rw [hfuel]
    rcases allocateFrom_wraps path (fuel + 2) table m ino hm hlow with
      ⟨i, table', hall, hb⟩ | hwraps
    · exact ⟨i, table', hall, by rw [hb]; omega⟩
    · rw [hwraps, InodeTable.allocateFrom]
      have hcase := probe_cases table path 0
      generalize table.probe path 0 = turn at hcase
      cases hcase with
      | atRoot hroot => exact absurd hroot (by decide)
      | found | vacant => exact ⟨_, _, rfl, by show table.bump.toNat ≤ n + 1; omega⟩
      | collision _ _ _ =>
        show ∃ i table', InodeTable.allocateFrom path (fuel + 1) table inoRoot = _ ∧ _
        rw [InodeTable.allocateFrom, InodeTable.probe, if_pos rfl]
        have hb1 : (table.bump + 1).toNat = table.bump.toNat + 1 := toNat_succ (by omega)
        have hjump : (inoRoot + (table.bump + 1)).toNat = table.bump.toNat + 2 := by
          rw [UInt64.toNat_add, hb1, show inoRoot.toNat = 1 from rfl, Nat.mod_eq_of_lt (by omega)]
          omega
        obtain ⟨k, hk, hvacant⟩ := h.vacant (by omega : table.bump.toNat + 2 + n < 2 ^ 64)
        obtain ⟨i, table', hall, hb⟩ := allocateFrom_of_vacant path k fuel
          { table with bump := table.bump + 1 } (inoRoot + (table.bump + 1)) (by omega)
          (by omega) (by omega) (by rw [hjump]; exact hvacant)
        exact ⟨i, table', hall, by rw [hb, hb1]; omega⟩

/-- **`allocate` returns**, in a table that could ever be in memory. -/
theorem allocate_ends (hasher : PathBuf → UInt64) (path : PathBuf) {n : Nat} {table : InodeTable}
    (h : Small n table) (ha : Agrees table) (hn : n < 2 ^ 62) :
    ∃ ino table', table.allocate hasher path = some (ino, table') ∧ Small (n + 1) table' := by
  obtain ⟨slots, hcard, hslots⟩ := h.taken
  have hbump := h.bump
  suffices hends : ∃ ino table', table.allocate hasher path = some (ino, table') ∧
      table'.bump.toNat ≤ n + 1 by
    obtain ⟨ino, table', hall, hb⟩ := hends
    refine ⟨ino, table', hall, ⟨insert ino slots, ?_, fun i hi => ?_⟩, hb⟩
    · exact Nat.le_trans (Finset.card_insert_le _ _) (Nat.succ_le_succ hcard)
    · obtain ⟨p, hp⟩ := Option.ne_none_iff_exists'.mp hi
      rcases (allocate_allocated ha hall).1.only i p hp with hold | ⟨rfl, -⟩
      · exact Finset.mem_insert_of_mem (hslots i (by rw [hold]; simp))
      · exact Finset.mem_insert_self ..
  unfold InodeTable.allocate
  cases hrev : table.reverse path with
  | some existing => exact ⟨existing, table, rfl, by omega⟩
  | none =>
    exact allocateFrom_ends h hn (Nat.le_trans (by decide) (start_reserved hasher path))

theorem allocate_small {hasher : PathBuf → UInt64} {path : PathBuf} {n : Nat}
    {table table' : InodeTable} {ino : UInt64} (hs : Small n table) (ha : Agrees table)
    (hn : n < 2 ^ 62) (h : table.allocate hasher path = some (ino, table')) :
    Small (n + 1) table' := by
  obtain ⟨ino₁, table₁, hall, hsmall⟩ := allocate_ends hasher path hs ha hn
  rw [h] at hall
  cases hall
  exact hsmall

end Inode
end ClickFs
