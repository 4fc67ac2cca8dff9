import Mathlib.Algebra.Order.Ring.Int
import Mathlib.Logic.Function.Basic

/-!
# `cache.rs` — the TTL cache for metadata listings

Entries are evicted lazily, on the read that finds them expired. Instants are
nanoseconds of one monotone clock, as `Instant` promises, and an entry lives as long as
its age is at most the TTL.

Here are the two operations as one caller sees them, from beginning to end; they are all
the file system needs, whose requests come one after the other. What threads that call them
at the same time see is in `Cache/Shared.lean`, and it is not the same.
-/

set_option autoImplicit false

namespace ClickFs

/-- `Duration::from_millis` -/
def fromMillis (ms : Nat) : Nat := ms * 1000000

structure TtlCache (κ ν : Type) where
  map : κ → Option (ν × Nat)
  ttl : Nat

namespace TtlCache

variable {κ ν : Type}

def new (ttl : Nat) : TtlCache κ ν := { map := fun _ => none, ttl }

/-- What holds of every value in the cache, under its key. -/
def All (P : κ → ν → Prop) (c : TtlCache κ ν) : Prop :=
  ∀ key val insertedAt, c.map key = some (val, insertedAt) → P key val

theorem All.new {P : κ → ν → Prop} (ttl : Nat) : All P (TtlCache.new ttl) := by
  intro key val insertedAt h
  cases h

/-- What `self.map.get` comes upon, with the age read under the guard. -/
inductive Found (ν : Type)
  | miss
  | live (val : ν)
  | expired

def find (c : TtlCache κ ν) (key : κ) (now : Nat) : Found ν :=
  match c.map key with
  | none => .miss
  | some (val, insertedAt) => if now - insertedAt ≤ c.ttl then .live val else .expired

theorem find_live {c : TtlCache κ ν} {key : κ} {now : Nat} {val : ν} :
    c.find key now = .live val ↔
      ∃ insertedAt, c.map key = some (val, insertedAt) ∧ now - insertedAt ≤ c.ttl := by
  unfold find
  cases hmap : c.map key with
  | none => simp
  | some entry =>
    obtain ⟨val', insertedAt⟩ := entry
    by_cases hlive : now - insertedAt ≤ c.ttl
    · simp only [if_pos hlive, Found.live.injEq, Option.some.injEq, Prod.mk.injEq]
      constructor
      · rintro rfl
        exact ⟨insertedAt, ⟨rfl, rfl⟩, hlive⟩
      · rintro ⟨_, ⟨rfl, rfl⟩, -⟩
        rfl
    · simp only [if_neg hlive, reduceCtorEq, Option.some.injEq, Prod.mk.injEq, false_iff]
      rintro ⟨_, ⟨rfl, rfl⟩, hlive'⟩
      exact hlive hlive'

theorem find_expired {c : TtlCache κ ν} {key : κ} {now : Nat} (h : c.find key now = .expired) :
    ∃ val insertedAt, c.map key = some (val, insertedAt) ∧ insertedAt + c.ttl < now := by
  unfold find at h
  split at h
  · cases h
  · rename_i val insertedAt hmap
    split at h
    · cases h
    · rename_i hold
      exact ⟨val, insertedAt, hmap, by omega⟩

variable [DecidableEq κ]

/-- Look up a key at the instant `now`. Nothing on miss or on expiry. Only the second of these
    changes the map. -/
def get (c : TtlCache κ ν) (key : κ) (now : Nat) : Option ν × TtlCache κ ν :=
  match c.map key with
  | none => (none, c)
  | some (val, insertedAt) =>
    if now - insertedAt ≤ c.ttl then (some val, c)
    else (none, { c with map := Function.update c.map key none })

/-- Insert (or refresh) a key at the instant `now`. -/
def insert (c : TtlCache κ ν) (key : κ) (val : ν) (now : Nat) : TtlCache κ ν :=
  { c with map := Function.update c.map key (some (val, now)) }

/-- `self.map.remove` -/
def remove (c : TtlCache κ ν) (key : κ) : TtlCache κ ν :=
  { c with map := Function.update c.map key none }

/-- `get` looks the key up, and removes it if it was expired. The two are told apart because
    threads can come in between. -/
theorem get_eq (c : TtlCache κ ν) (key : κ) (now : Nat) :
    c.get key now = match c.find key now with
      | .miss => (none, c)
      | .live val => (some val, c)
      | .expired => (none, c.remove key) := by
  unfold get find remove
  cases c.map key with
  | none => rfl
  | some entry =>
    by_cases hlive : now - entry.2 ≤ c.ttl
    · simp only [if_pos hlive]
    · simp only [if_neg hlive]

/-- A hit is a value of the cache, so what holds of all values holds of what is found, and of what
    stays. -/
theorem All.hit {P : κ → ν → Prop} {c c' : TtlCache κ ν} (hc : All P c) {key : κ} {now : Nat}
    {val : ν} (h : c.get key now = (some val, c')) : P key val := by
  unfold get at h
  split at h
  · cases h
  · rename_i val' insertedAt hmap
    split at h
    · cases h
      exact hc _ _ _ hmap
    · cases h

theorem All.get {P : κ → ν → Prop} {c : TtlCache κ ν} (hc : All P c) (key : κ) (now : Nat) :
    All P (c.get key now).2 := by
  unfold TtlCache.get
  split
  · exact hc
  · split
    · exact hc
    · intro key' val' at' h
      by_cases hkey : key' = key
      · subst hkey
        simp only [Function.update_self] at h
        cases h
      · simp only [Function.update_of_ne hkey] at h
        exact hc _ _ _ h

theorem All.insert {P : κ → ν → Prop} {c : TtlCache κ ν} (hc : All P c) {key : κ} {val : ν}
    (hval : P key val) (now : Nat) : All P (c.insert key val now) := by
  intro key' val' at' h
  by_cases hkey : key' = key
  · subst hkey
    simp only [TtlCache.insert, Function.update_self] at h
    cases h
    exact hval
  · simp only [TtlCache.insert, Function.update_of_ne hkey] at h
    exact hc _ _ _ h

/-- What is found: the value of an entry that is still alive. -/
theorem get_fst (c : TtlCache κ ν) (key : κ) (now : Nat) :
    (c.get key now).1
      = (c.map key).bind fun entry => if now - entry.2 ≤ c.ttl then some entry.1 else none := by
  unfold get
  cases c.map key with
  | none => rfl
  | some entry =>
    simp only [Option.bind_some]
    split <;> rfl

/-- A value just put in is found until it expires. -/
theorem get_insert (c : TtlCache κ ν) (key : κ) (val : ν) {stamp now : Nat}
    (h : now - stamp ≤ c.ttl) : ((c.insert key val stamp).get key now).1 = some val := by
  simp only [get_fst, TtlCache.insert, Function.update_self, Option.bind_some, h, if_true]

theorem get_insert_of_ne (c : TtlCache κ ν) {key key' : κ} (h : key' ≠ key) (val : ν)
    (stamp now : Nat) : ((c.insert key val stamp).get key' now).1 = (c.get key' now).1 := by
  simp [get_fst, TtlCache.insert, Function.update_of_ne h]

/-- Looking up evicts nothing that is found at the same instant. So the order in which one request
    looks its keys up does not matter. -/
theorem get_get (c : TtlCache κ ν) (key key' : κ) (now : Nat) :
    ((c.get key now).2.get key' now).1 = (c.get key' now).1 := by
  cases hmap : c.map key with
  | none => simp only [TtlCache.get, hmap]
  | some entry =>
    by_cases hlive : now - entry.2 ≤ c.ttl
    · simp only [TtlCache.get, hmap, if_pos hlive]
    · have hget : (c.get key now).2 = { c with map := Function.update c.map key none } := by
        simp only [TtlCache.get, hmap, if_neg hlive]
      rw [hget, get_fst, get_fst]
      by_cases hkey : key' = key
      · subst hkey
        simp only [hmap, hlive, Function.update_self, Option.bind_some, Option.bind_none, if_false]
      · simp [Function.update_of_ne hkey]

end TtlCache
end ClickFs
