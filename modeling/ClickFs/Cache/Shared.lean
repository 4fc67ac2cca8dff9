import ClickFs.Cache
import ClickFs.Lib.Lts

/-!
# The cache as its threads see it

`get` and `insert` at the granularity of the accesses to the map. A `get` that finds its
entry expired drops the guard before it removes the key, and the key is removed whatever
it holds by then. So a fresh entry that was put in between goes with it
(`fresh_insert_removed`), and what the cache does keep is said under the condition that
no removal hits a live entry (`live_insert_kept`). The condition is no more than is
needed: an entry that is removed while it lives is missed at once (`removed_is_missed`).

The clock is part of the state and moves by steps of its own, so any time may pass
between any two accesses. An `insert` reads the clock before it takes the map, so an entry may have
aged before it is there; a `get` reads it while it holds the entry.

One thread alone runs `TtlCache.get` and `TtlCache.insert` (`exec_get`, `exec_insert`).
-/

set_option autoImplicit false

namespace ClickFs

namespace Cache

abbrev Tid := Nat

/-- Where one thread is in `get` or `insert`: between which two accesses to the map or the clock. -/
inductive Thread (κ ν : Type)
  | idle
  | looking (key : κ)
  /-- between `drop(entry)` and `self.map.remove` -/
  | removing (key : κ) (readAt : Nat)
  /-- before `Instant::now()` -/
  | stamping (key : κ) (val : ν)
  /-- before `self.map.insert` -/
  | inserting (key : κ) (val : ν) (stamp : Nat)

structure State (κ ν : Type) where
  cache : TtlCache κ ν
  now : Nat
  threads : Tid → Thread κ ν

inductive Action (κ ν : Type)
  | tick (ns : Nat)
  | get (t : Tid) (key : κ)
  | look (t : Tid)
  | remove (t : Tid)
  | insert (t : Tid) (key : κ) (val : ν)
  | stamp (t : Tid)
  | put (t : Tid)

inductive Event (κ ν : Type)
  | started (t : Tid) (key : κ)
  /-- a `get` has returned; `readAt` is when it read the clock, or looked in vain -/
  | got (t : Tid) (key : κ) (readAt : Nat) (val : Option ν)
  | inserted (t : Tid) (key : κ) (val : ν) (stamp : Nat)
deriving DecidableEq

variable {κ ν : Type}

namespace State

def init (ttl now : Nat) : State κ ν := { cache := .new ttl, now, threads := fun _ => .idle }

def setThread (s : State κ ν) (t : Tid) (th : Thread κ ν) : State κ ν :=
  { s with threads := Function.update s.threads t th }

@[simp] theorem setThread_cache (s : State κ ν) (t : Tid) (th : Thread κ ν) :
    (s.setThread t th).cache = s.cache := rfl

@[simp] theorem setThread_now (s : State κ ν) (t : Tid) (th : Thread κ ν) :
    (s.setThread t th).now = s.now := rfl

@[simp] theorem setThread_self (s : State κ ν) (t : Tid) (th : Thread κ ν) :
    (s.setThread t th).threads t = th := Function.update_self ..

theorem setThread_of_ne (s : State κ ν) {t t' : Tid} (h : t' ≠ t) (th : Thread κ ν) :
    (s.setThread t th).threads t' = s.threads t' := Function.update_of_ne h ..

@[simp] theorem setThread_setThread (s : State κ ν) (t : Tid) (th th' : Thread κ ν) :
    (s.setThread t th).setThread t th' = s.setThread t th' := by
  simp [setThread]

/-- Putting a thread where it already is changes nothing. For the loops of the two runs below. -/
theorem setThread_eq_self {s : State κ ν} {t : Tid} {th : Thread κ ν} (h : s.threads t = th) :
    s.setThread t th = s := by
  subst h
  simp [setThread]

end State

variable [DecidableEq κ]

def step (s : State κ ν) : Action κ ν → Option (State κ ν × List (Event κ ν))
  | .tick ns => some ({ s with now := s.now + ns }, [])
  | .get t key =>
    match s.threads t with
    | .idle => some (s.setThread t (.looking key), [.started t key])
    | _ => none
  | .look t =>
    match s.threads t with
    | .looking key =>
      match s.cache.find key s.now with
      | .miss => some (s.setThread t .idle, [.got t key s.now none])
      | .live val => some (s.setThread t .idle, [.got t key s.now (some val)])
      | .expired => some (s.setThread t (.removing key s.now), [])
    | _ => none
  | .remove t =>
    match s.threads t with
    | .removing key readAt =>
      -- the entry is not looked at again
      some ({ s.setThread t .idle with cache := s.cache.remove key }, [.got t key readAt none])
    | _ => none
  | .insert t key val =>
    match s.threads t with
    | .idle => some (s.setThread t (.stamping key val), [])
    | _ => none
  | .stamp t =>
    match s.threads t with
    | .stamping key val => some (s.setThread t (.inserting key val s.now), [])
    | _ => none
  | .put t =>
    match s.threads t with
    | .inserting key val stamp =>
      some ({ s.setThread t .idle with cache := s.cache.insert key val stamp },
        [.inserted t key val stamp])
    | _ => none

/-- The cache under any number of threads. -/
def sys (κ ν : Type) [DecidableEq κ] : Lts (State κ ν) (Action κ ν) (Event κ ν) := ⟨step⟩

/-! ## What one step does -/

/-- Every step there is, with the state it leads to and what it emits. The invariants are proved
    by cases on it. -/
inductive StepCase (s : State κ ν) : Action κ ν → State κ ν × List (Event κ ν) → Prop
  | tick (ns : Nat) : StepCase s (.tick ns) ({ s with now := s.now + ns }, [])
  | get {t : Tid} {key : κ} (h : s.threads t = .idle) :
      StepCase s (.get t key) (s.setThread t (.looking key), [.started t key])
  | miss {t : Tid} {key : κ} (h : s.threads t = .looking key)
      (hfind : s.cache.find key s.now = .miss) :
      StepCase s (.look t) (s.setThread t .idle, [.got t key s.now none])
  | live {t : Tid} {key : κ} {val : ν} (h : s.threads t = .looking key)
      (hfind : s.cache.find key s.now = .live val) :
      StepCase s (.look t) (s.setThread t .idle, [.got t key s.now (some val)])
  | expired {t : Tid} {key : κ} (h : s.threads t = .looking key)
      (hfind : s.cache.find key s.now = .expired) :
      StepCase s (.look t) (s.setThread t (.removing key s.now), [])
  | remove {t : Tid} {key : κ} {readAt : Nat} (h : s.threads t = .removing key readAt) :
      StepCase s (.remove t)
        ({ s.setThread t .idle with cache := s.cache.remove key }, [.got t key readAt none])
  | insert {t : Tid} {key : κ} {val : ν} (h : s.threads t = .idle) :
      StepCase s (.insert t key val) (s.setThread t (.stamping key val), [])
  | stamp {t : Tid} {key : κ} {val : ν} (h : s.threads t = .stamping key val) :
      StepCase s (.stamp t) (s.setThread t (.inserting key val s.now), [])
  | put {t : Tid} {key : κ} {val : ν} {stamp : Nat} (h : s.threads t = .inserting key val stamp) :
      StepCase s (.put t)
        ({ s.setThread t .idle with cache := s.cache.insert key val stamp },
          [.inserted t key val stamp])

theorem step_cases {s : State κ ν} {a : Action κ ν} {r : State κ ν × List (Event κ ν)}
    (h : (sys κ ν).step s a = some r) : StepCase s a r := by
  simp only [sys] at h
  cases a with
  | tick ns =>
    cases h
    exact .tick ns
  | get t key =>
    simp only [step] at h
    split at h
    · rename_i hth
      cases h
      exact .get hth
    · cases h
  | look t =>
    simp only [step] at h
    split at h
    · rename_i key hth
      split at h
      · rename_i hfind
        cases h
        exact .miss hth hfind
      · rename_i val hfind
        cases h
        exact .live hth hfind
      · rename_i hfind
        cases h
        exact .expired hth hfind
    · cases h
  | remove t =>
    simp only [step] at h
    split at h
    · rename_i key readAt hth
      cases h
      exact .remove hth
    · cases h
  | insert t key val =>
    simp only [step] at h
    split at h
    · rename_i hth
      cases h
      exact .insert hth
    · cases h
  | stamp t =>
    simp only [step] at h
    split at h
    · rename_i key val hth
      cases h
      exact .stamp hth
    · cases h
  | put t =>
    simp only [step] at h
    split at h
    · rename_i key val stamp hth
      cases h
      exact .put hth
    · cases h

theorem step_one (s : State κ ν) (a : Action κ ν) (s₁ : State κ ν) (evs : List (Event κ ν))
    (h : (sys κ ν).step s a = some (s₁, evs)) : evs.length ≤ 1 := by
  cases step_cases h <;> simp

/-! ## One thread -/

/-- `get` called by one thread is `TtlCache.get`, with the clock standing still meanwhile. -/
theorem exec_get {s : State κ ν} {t : Tid} (h : s.threads t = .idle) (key : κ) :
    ∃ as, (sys κ ν).Exec s as [.started t key, .got t key s.now (s.cache.get key s.now).1]
      { s with cache := (s.cache.get key s.now).2 } := by
  let s₁ := s.setThread t (.looking key)
  have hcall : (sys κ ν).step s (.get t key) = some (s₁, [.started t key]) := by
    simp only [sys, step, h, s₁]
  have hth : s₁.threads t = .looking key := Function.update_self ..
  have hback : s.setThread t .idle = s := State.setThread_eq_self h
  cases hfind : s.cache.find key s.now with
  | miss =>
    have hlook : (sys κ ν).step s₁ (.look t) = some (s, [.got t key s.now none]) := by
      simp only [sys, step, hth, s₁, State.setThread_cache, State.setThread_now, hfind,
        State.setThread_setThread, hback]
    rw [TtlCache.get_eq, hfind]
    exact ⟨_, .cons hcall (.one hlook)⟩
  | live val =>
    have hlook : (sys κ ν).step s₁ (.look t) = some (s, [.got t key s.now (some val)]) := by
      simp only [sys, step, hth, s₁, State.setThread_cache, State.setThread_now, hfind,
        State.setThread_setThread, hback]
    rw [TtlCache.get_eq, hfind]
    exact ⟨_, .cons hcall (.one hlook)⟩
  | expired =>
    let s₂ := s.setThread t (.removing key s.now)
    have hlook : (sys κ ν).step s₁ (.look t) = some (s₂, []) := by
      simp only [sys, step, hth, s₁, s₂, State.setThread_cache, State.setThread_now, hfind,
        State.setThread_setThread]
    have hth₂ : s₂.threads t = .removing key s.now := Function.update_self ..
    have hremove : (sys κ ν).step s₂ (.remove t)
        = some ({ s with cache := s.cache.remove key }, [.got t key s.now none]) := by
      simp only [sys, step, hth₂, s₂, State.setThread_cache, State.setThread_setThread, hback]
    rw [TtlCache.get_eq, hfind]
    exact ⟨_, .cons hcall (.cons hlook (.one hremove))⟩

/-- `insert` called by one thread is `TtlCache.insert`. -/
theorem exec_insert {s : State κ ν} {t : Tid} (h : s.threads t = .idle) (key : κ) (val : ν) :
    ∃ as, (sys κ ν).Exec s as [.inserted t key val s.now]
      { s with cache := s.cache.insert key val s.now } := by
  let s₁ := s.setThread t (.stamping key val)
  let s₂ := s.setThread t (.inserting key val s.now)
  have hcall : (sys κ ν).step s (.insert t key val) = some (s₁, []) := by
    simp only [sys, step, h, s₁]
  have hth₁ : s₁.threads t = .stamping key val := Function.update_self ..
  have hstamp : (sys κ ν).step s₁ (.stamp t) = some (s₂, []) := by
    simp only [sys, step, hth₁, s₁, s₂, State.setThread_now, State.setThread_setThread]
  have hth₂ : s₂.threads t = .inserting key val s.now := Function.update_self ..
  have hput : (sys κ ν).step s₂ (.put t) = some ({ s with cache := s.cache.insert key val s.now },
      [.inserted t key val s.now]) := by
    simp only [sys, step, hth₂, s₂, State.setThread_cache, State.setThread_setThread,
      State.setThread_eq_self h]
  exact ⟨_, .cons hcall (.cons hstamp (.one hput))⟩

/-! ## A live insert -/

/-- The removal, if the step is one, does not hit a live entry. A condition on the state before
    the step: what the map holds under the key and what the clock says. -/
def RemovesNoLive (s : State κ ν) (a : Action κ ν) : Prop :=
  ∀ t key readAt, a = .remove t → s.threads t = .removing key readAt →
    ∀ val, s.cache.find key s.now ≠ .live val

/-- No insert on the key has been completed. -/
def NoInsert (key : κ) (log : List (Event κ ν)) : Prop :=
  ∀ t val stamp, .inserted t key val stamp ∉ log

/-- What stays true after an insert, while no other one on the key is completed: it is there until
    it has expired, and a `get` that was started since and goes on to remove the key has read the
    clock after that. -/
structure Kept (key : κ) (val : ν) (stamp ttl : Nat) (s : State κ ν) (log : List (Event κ ν)) :
    Prop where
  lasts : s.cache.ttl = ttl
  here : s.cache.map key = some (val, stamp) ∨ stamp + ttl < s.now
  removing : ∀ t key' readAt, .started t key' ∈ log → s.threads t = .removing key readAt →
    stamp + ttl < readAt

variable {key : κ} {val : ν} {stamp ttl : Nat} {s : State κ ν} {log : List (Event κ ν)}

omit [DecidableEq κ] in
theorem Kept.find (h : Kept key val stamp ttl s log) (hlive : s.now ≤ stamp + ttl) :
    s.cache.find key s.now = .live val := by
  rcases h.here with hmap | hpast
  · have hage : s.now - stamp ≤ s.cache.ttl := by
      rw [h.lasts]
      omega
    exact TtlCache.find_live.mpr ⟨stamp, hmap, hage⟩
  · exact absurd hlive (Nat.not_le.mpr hpast)

omit [DecidableEq κ] in
/-- Moving one thread to where it does not remove the key, and starting no `get` unnoticed. -/
theorem Kept.move (h : Kept key val stamp ttl s log) {t : Tid} {th : Thread κ ν} {cache : TtlCache κ ν}
    {evs : List (Event κ ν)} (httl : cache.ttl = s.cache.ttl)
    (hhere : cache.map key = some (val, stamp) ∨ stamp + ttl < s.now)
    (hth : ∀ readAt, th = .removing key readAt → stamp + ttl < readAt)
    (hevs : ∀ t' key', .started t' key' ∈ evs → t' = t) :
    Kept key val stamp ttl { s.setThread t th with cache } (log ++ evs) := by
  refine ⟨httl.trans h.lasts, hhere, ?_⟩
  intro t' key' readAt hstarted hremoving
  by_cases ht : t' = t
  · subst ht
    exact hth readAt ((State.setThread_self s t' th).symm.trans hremoving)
  · have hsame : s.threads t' = .removing key readAt :=
      (State.setThread_of_ne s ht th).symm.trans hremoving
    rcases List.mem_append.mp hstarted with hstarted | hstarted
    · exact h.removing t' key' readAt hstarted hsame
    · exact absurd (hevs t' key' hstarted) ht

theorem kept_step (h : Kept key val stamp ttl s log) {a : Action κ ν} (hC : RemovesNoLive s a)
    {s₁ : State κ ν} {evs : List (Event κ ν)} (hstep : (sys κ ν).step s a = some (s₁, evs))
    (hno : NoInsert key evs) : Kept key val stamp ttl s₁ (log ++ evs) := by
  cases step_cases hstep with
  | tick ns =>
    refine ⟨h.lasts, ?_, ?_⟩
    · rcases h.here with hmap | hpast
      · exact .inl hmap
      · exact .inr (Nat.lt_add_right ns hpast)
    · rw [List.append_nil]
      exact h.removing
  | get hth => exact h.move rfl h.here (by simp) (by simp)
  | miss hth hfind => exact h.move rfl h.here (by simp) (by simp)
  | live hth hfind => exact h.move rfl h.here (by simp) (by simp)
  | @expired t key' hth hfind =>
    -- what it found expired is the kept entry, or that one's time is over
    refine h.move rfl h.here (fun readAt hremoving => ?_) (by simp)
    obtain ⟨rfl, rfl⟩ : key' = key ∧ s.now = readAt := by simpa using hremoving
    rcases h.here with hmap | hpast
    · obtain ⟨val', insertedAt, hmap', hold⟩ := TtlCache.find_expired hfind
      rw [hmap] at hmap'
      cases hmap'
      rwa [h.lasts] at hold
    · exact hpast
  | @remove t key' readAt hth =>
    refine h.move rfl ?_ (by simp) (by simp)
    by_cases hkey : key = key'
    · subst hkey
      rcases h.here with hmap | hpast
      · -- it is not live, so it has expired
        have hnot := hC t key readAt rfl hth val
        rw [ne_eq, TtlCache.find_live] at hnot
        refine .inr ?_
        by_contra hlive
        rw [h.lasts] at hnot
        exact hnot ⟨stamp, hmap, by omega⟩
      · exact .inr hpast
    · rcases h.here with hmap | hpast
      · exact .inl ((Function.update_of_ne hkey ..).trans hmap)
      · exact .inr hpast
  | insert hth => exact h.move rfl h.here (by simp) (by simp)
  | stamp hth => exact h.move rfl h.here (by simp) (by simp)
  | @put t key' val' stamp' hth =>
    refine h.move rfl ?_ (by simp) (by simp)
    have hkey : key ≠ key' := by
      rintro rfl
      exact hno t val' stamp' List.mem_cons_self
    rcases h.here with hmap | hpast
    · exact .inl ((Function.update_of_ne hkey ..).trans hmap)
    · exact .inr hpast

theorem exec_kept {as : List (Action κ ν)} {tr : List (Event κ ν)} {s' : State κ ν}
    (hrun : (sys κ ν).Exec s as tr s') (hC : (sys κ ν).Along RemovesNoLive s as)
    (hno : NoInsert key tr) (h : Kept key val stamp ttl s []) : Kept key val stamp ttl s' tr := by
  have hkept := hrun.logAlong (I := fun s log => NoInsert key log → Kept key val stamp ttl s log)
    (fun s a s₁ evs log ih hC hstep hno => by
      have hlog : NoInsert key log := fun t val stamp hmem =>
        hno t val stamp (List.mem_append_left _ hmem)
      have hevs : NoInsert key evs := fun t val stamp hmem =>
        hno t val stamp (List.mem_append_right _ hmem)
      exact kept_step (ih hlog) hC hstep hevs) hC (fun _ => h)
  exact hkept hno

theorem exec_ttl {as : List (Action κ ν)} {tr : List (Event κ ν)} {s' : State κ ν}
    (hrun : (sys κ ν).Exec s as tr s') : s'.cache.ttl = s.cache.ttl := by
  refine hrun.invariant (I := fun s₁ => s₁.cache.ttl = s.cache.ttl) ?_ rfl
  intro s₁ a s₂ evs hsame hstep
  cases step_cases hstep <;> exact hsame

/-- **A live insert is kept.** In a run in which no removal hits a live entry: when the last
    insert on a key has been completed, every `get` of the key that is started after it and
    reads the clock before the entry expires returns its value. -/
theorem live_insert_kept {ttl now : Nat} {as : List (Action κ ν)} {tr : List (Event κ ν)}
    {s : State κ ν} (hrun : (sys κ ν).Exec (.init ttl now) as tr s)
    (hremoves : (sys κ ν).Along RemovesNoLive (.init ttl now) as)
    {tr₁ tr₂ tr₃ : List (Event κ ν)} {t t' : Tid} {key : κ} {val : ν} {stamp readAt : Nat}
    {result : Option ν}
    (htr : tr = tr₁ ++ .inserted t key val stamp :: (tr₂ ++ .got t' key readAt result :: tr₃))
    (hlast : NoInsert key tr₂) (hstarted : .started t' key ∈ tr₂) (hlive : readAt ≤ stamp + ttl) :
    result = some val := by
  obtain ⟨as₁, a, as₂, s₁, s₂, rfl, hbefore, hput, hafter⟩ := hrun.cut step_one htr
  obtain ⟨as₃, b, as₄, s₃, s₄, rfl, hbetween, hgot, -⟩ := hafter.cut step_one rfl
  have hC := ((Lts.Along.append hbefore).mp hremoves).2.2 _ _ hput
  have hC := ((Lts.Along.append hbetween).mp hC).1
  have hputCase := step_cases hput
  have hgotCase := step_cases hgot
  -- right after the insert
  have hkept : Kept key val stamp ttl s₂ [] := by
    have httl : s₁.cache.ttl = ttl := exec_ttl hbefore
    cases hputCase with
    | put hth =>
      refine ⟨httl, .inl (Function.update_self ..), ?_⟩
      intro t key' readAt hmem
      cases hmem
  have hkept := exec_kept hbetween hC hlast hkept
  cases hgotCase with
  | miss hth hfind =>
    rw [hkept.find hlive] at hfind
    cases hfind
  | live hth hfind =>
    rw [hkept.find hlive] at hfind
    cases hfind
    rfl
  | remove hth =>
    -- it was started since, so it read the clock too late
    exact absurd hlive (Nat.not_le.mpr (hkept.removing t' key readAt hstarted hth))

/-- Thread 1 finds the entry of thread 0 expired. -/
def staleFound : List (Action Unit Nat) :=
  [.insert 0 () 7, .stamp 0, .put 0, .tick 3, .get 1 (), .look 1]

/-- It removes it before thread 2 puts a fresh one in, and thread 3 finds the fresh one. -/
def staleRemoved : List (Action Unit Nat) :=
  [.remove 1, .insert 2 () 8, .stamp 2, .put 2, .get 3 (), .tick 1, .look 3]

theorem live_insert_kept_unit : ∃ (s : State Unit Nat) (result : Option Nat),
    (sys Unit Nat).Exec (.init 2 0) (staleFound ++ staleRemoved)
      [.inserted 0 () 7 0, .started 1 (), .got 1 () 3 none, .inserted 2 () 8 3, .started 3 (),
        .got 3 () 4 result] s ∧
    result = some 8 := by
  have hrun : (sys Unit Nat).Exec (.init 2 0) (staleFound ++ staleRemoved)
      ([.inserted 0 () 7 0, .started 1 (), .got 1 () 3 none]
        ++ .inserted 2 () 8 3 :: ([.started 3 ()] ++ .got 3 () 4 (some 8) :: [])) _ :=
    Lts.exec_of_isSome (by decide)
  have hbefore : (sys Unit Nat).Exec (.init 2 0) staleFound _ _ := Lts.exec_of_isSome (by decide)
  have hremoves : (sys Unit Nat).Along RemovesNoLive (.init 2 0) (staleFound ++ staleRemoved) := by
    refine (Lts.Along.append hbefore).mpr ⟨?_, ?_, fun s₁ evs _ => ?_⟩
    · exact Lts.along_of_forall (by simp [staleFound, RemovesNoLive]) _
    · -- at the one removal the entry has expired
      rintro t ⟨⟩ readAt - - val hlive
      cases hlive
    · exact Lts.along_of_forall (by simp [RemovesNoLive]) _
  have hlast : NoInsert () [(.started 3 () : Event Unit Nat)] := by
    intro t val stamp hmem
    simp at hmem
  exact ⟨_, _, hrun, live_insert_kept hrun hremoves rfl hlast List.mem_cons_self (by decide)⟩

/-- A live entry that is removed is missed by the next `get`, at the same instant. -/
theorem removed_is_missed {t t' : Tid} {readAt : Nat} (hth : s.threads t = .removing key readAt)
    (hidle : s.threads t' = .idle) (ht : t' ≠ t) :
    ∃ s', (sys κ ν).Exec s [.remove t, .get t' key, .look t']
      [.got t key readAt none, .started t' key, .got t' key s.now none] s' := by
  let s₁ : State κ ν := { s.setThread t .idle with cache := s.cache.remove key }
  have hremove : (sys κ ν).step s (.remove t) = some (s₁, [.got t key readAt none]) := by
    simp only [sys, step, hth, s₁]
  have hidle₁ : s₁.threads t' = .idle := (State.setThread_of_ne s ht _).trans hidle
  let s₂ := s₁.setThread t' (.looking key)
  have hget : (sys κ ν).step s₁ (.get t' key) = some (s₂, [.started t' key]) := by
    simp only [sys, step, hidle₁, s₂]
  have hth₂ : s₂.threads t' = .looking key := Function.update_self ..
  have hfind : s₂.cache.find key s.now = .miss := by
    show (s.cache.remove key).find key s.now = .miss
    simp only [TtlCache.find, TtlCache.remove, Function.update_self]
  have hlook : (sys κ ν).step s₂ (.look t')
      = some (s₂.setThread t' .idle, [.got t' key s.now none]) := by
    have hnow : s₂.now = s.now := rfl
    simp only [sys, step, hth₂, hnow, hfind]
  exact ⟨_, .cons hremove (.cons hget (.one hlook))⟩

/-- A `get` that found the entry expired removes the fresh one that was put in before it got to
    it. No other insert follows, and the next `get`, at the same instant, finds nothing. Both
    entries are of one key, and the fresh one has its whole life before it. -/
theorem fresh_insert_removed : ∃ (as : List (Action Unit Nat)) (s : State Unit Nat)
    (tr₁ tr₂ : List (Event Unit Nat)), (sys Unit Nat).Exec (.init 2 0) as
      (tr₁ ++ .inserted 2 () 8 3 :: (tr₂ ++ .got 3 () 3 none :: [])) s ∧
    NoInsert () tr₂ ∧ .started 3 () ∈ tr₂ ∧ 3 ≤ 3 + 2 ∧ (none : Option Nat) ≠ some 8 := by
  let as : List (Action Unit Nat) := [.insert 0 () 7, .stamp 0, .put 0, .tick 3, .get 1 (), .look 1,
    .insert 2 () 8, .stamp 2, .put 2, .remove 1, .get 3 (), .look 3]
  have hrun : (sys Unit Nat).Exec (.init 2 0) as ([.inserted 0 () 7 0, .started 1 ()]
      ++ .inserted 2 () 8 3 :: ([.got 1 () 3 none, .started 3 ()] ++ .got 3 () 3 none :: [])) _ :=
    Lts.exec_of_isSome (by decide)
  refine ⟨as, _, _, _, hrun, ?_, by decide, by decide, by decide⟩
  intro t val stamp hmem
  simp at hmem

end Cache
end ClickFs
