import MtcCa.Lib.CasLoop

/-! Waiting for a register to be ready. Whoever has changed the register bumps a version before
its call returns; a waiter notes the version, looks at the register, and sleeps until the version
is another one. -/
namespace Watch

open CasLoop (Phase)
open Transition (Trace)

variable {V O D : Type} {attempt : O → V → Option V} {ready : D → V → Prop}

/-- Where a waiter is; `seen` is the version it has noted. -/
inductive Waiter (D : Type) where
  | idle
  | looking (d : D) (seen : ℕ)
  | asleep (d : D) (seen : ℕ)
  | done (d : D)

/-- The register with its calls, the version, and the waiters. -/
structure State (V O D : Type) where
  cell : CasLoop.State V O
  version : ℕ
  waiters : ℕ → Waiter D

inductive Event (V O D : Type) where
  | cell (e : CasLoop.Event V O)
  | subscribe (j : ℕ) (d : D)
  | look (j : ℕ)
  | wake (j : ℕ)
  | leave (j : ℕ)

/-- A call that has written bumps the version as it returns. -/
def bump : CasLoop.Event V O → ℕ
  | .returned _ _ (.wrote _ _) => 1
  | _ => 0

def State.init (v : V) : State V O D := ⟨.init v, 0, fun _ => .idle⟩

def State.put (s : State V O D) (j : ℕ) (w : Waiter D) : State V O D :=
  { s with waiters := Function.update s.waiters j w }

@[simp] theorem State.put_cell (s : State V O D) (j : ℕ) (w : Waiter D) :
    (s.put j w).cell = s.cell := rfl

@[simp] theorem State.put_version (s : State V O D) (j : ℕ) (w : Waiter D) :
    (s.put j w).version = s.version := rfl

@[simp] theorem State.put_self (s : State V O D) (j : ℕ) (w : Waiter D) :
    (s.put j w).waiters j = w := Function.update_self ..

theorem State.put_of_ne {s : State V O D} {i j : ℕ} {w : Waiter D} (h : i ≠ j) :
    (s.put j w).waiters i = s.waiters i := Function.update_of_ne h ..

/-- The steps. A waiter may leave at any time, and then wait again. -/
inductive Step (attempt : O → V → Option V) (ready : D → V → Prop) (s : State V O D) :
    Event V O D → State V O D → Prop where
  | cell {e : CasLoop.Event V O} {cell : CasLoop.State V O}
      (h : CasLoop.Step attempt s.cell e cell) :
      Step attempt ready s (.cell e) { s with cell := cell, version := s.version + bump e }
  | subscribe {j : ℕ} (d : D) (h : s.waiters j = .idle) :
      Step attempt ready s (.subscribe j d) (s.put j (.looking d s.version))
  | pass {j seen : ℕ} {d : D} (h : s.waiters j = .looking d seen) (hr : ready d s.cell.reg) :
      Step attempt ready s (.look j) (s.put j (.done d))
  | sleep {j seen : ℕ} {d : D} (h : s.waiters j = .looking d seen) (hr : ¬ ready d s.cell.reg) :
      Step attempt ready s (.look j) (s.put j (.asleep d seen))
  | wake {j seen : ℕ} {d : D} (h : s.waiters j = .asleep d seen) (hne : s.version ≠ seen) :
      Step attempt ready s (.wake j) (s.put j (.looking d s.version))
  | leave (j : ℕ) : Step attempt ready s (.leave j) (s.put j .idle)

/-- Between its write and its return a call has not told the waiters. -/
def Untold (s : CasLoop.State V O) : Prop := ∃ i o old new, s.calls i = .wrote o old new

variable {s t : State V O D} {e : Event V O D} {es : List (Event V O D)} {j seen : ℕ} {d : D}
  {v : V}

/-- A step of a call that changes the register leaves it untold, and one that makes it told bumps
the version. -/
theorem cell_step {c c' : CasLoop.State V O} {e : CasLoop.Event V O}
    (h : CasLoop.Step attempt c e c') :
    Untold c' ∨ (c'.reg = c.reg ∧ (Untold c → bump e = 1)) := by
  obtain ⟨i, hmove⟩ := h
  by_cases hother : ∃ k o old new, k ≠ i ∧ c.calls k = .wrote o old new
  · obtain ⟨k, o, old, new, hk, hcall⟩ := hother
    exact Or.inl ⟨k, o, old, new, (CasLoop.State.update_of_ne hk).trans hcall⟩
  · have hown : Untold c → ∃ o old new, c.calls i = .wrote o old new := by
      rintro ⟨k, o, old, new, hcall⟩
      by_cases hk : k = i
      · exact ⟨o, old, new, hk ▸ hcall⟩
      · exact absurd ⟨k, o, old, new, hk, hcall⟩ hother
    generalize c.calls i = p at hmove hown
    cases hmove with
    | swap hnext => exact Or.inl ⟨i, _, _, _, CasLoop.State.update_self ..⟩
    | ret => exact Or.inr ⟨rfl, fun _ => rfl⟩
    | _ =>
      refine Or.inr ⟨rfl, fun hu => ?_⟩
      obtain ⟨o, old, new, hcall⟩ := hown hu
      cases hcall

/-- No waiter has noted a version that is still to come, and one that sleeps on the present
version found the register as it still is, or a call is yet to tell it. -/
structure Vigilant (ready : D → V → Prop) (s : State V O D) : Prop where
  looking : ∀ j d seen, s.waiters j = .looking d seen → seen ≤ s.version
  asleep : ∀ j d seen, s.waiters j = .asleep d seen → seen ≤ s.version
  unready : ∀ j d, s.waiters j = .asleep d s.version → ¬ ready d s.cell.reg ∨ Untold s.cell

theorem vigilant_init (v : V) : Vigilant ready (State.init v : State V O D) where
  looking := by rintro j d seen ⟨⟩
  asleep := by rintro j d seen ⟨⟩
  unready := by rintro j d ⟨⟩

/-- Putting one waiter where it may be. -/
theorem Vigilant.put (h : Vigilant ready s) {w : Waiter D}
    (hlooking : ∀ d seen, w = .looking d seen → seen ≤ s.version)
    (hasleep : ∀ d seen, w = .asleep d seen → seen ≤ s.version ∧ ¬ ready d s.cell.reg) :
    Vigilant ready (s.put j w) where
  looking i d seen hi := by
    by_cases hij : i = j
    · rw [hij, State.put_self] at hi
      exact hlooking d seen hi
    · rw [State.put_of_ne hij] at hi
      exact h.looking i d seen hi
  asleep i d seen hi := by
    by_cases hij : i = j
    · rw [hij, State.put_self] at hi
      exact (hasleep d seen hi).1
    · rw [State.put_of_ne hij] at hi
      exact h.asleep i d seen hi
  unready i d hi := by
    by_cases hij : i = j
    · rw [hij, State.put_self] at hi
      exact Or.inl (hasleep d _ hi).2
    · rw [State.put_of_ne hij] at hi
      exact h.unready i d hi

theorem vigilant_step (h : Step attempt ready s e t) (hs : Vigilant ready s) :
    Vigilant ready t := by
  cases h with
  | @cell ce cell hcell =>
    refine ⟨?_, ?_, ?_⟩
    · intro i d seen hi
      exact (hs.looking i d seen hi).trans (Nat.le_add_right _ _)
    · intro i d seen hi
      exact (hs.asleep i d seen hi).trans (Nat.le_add_right _ _)
    · intro i d hi
      have hseen : s.version + bump ce ≤ s.version := hs.asleep i d _ hi
      obtain huntold | ⟨hreg, htold⟩ := cell_step hcell
      · exact Or.inr huntold
      · have hbump : bump ce = 0 := by omega
        rw [hbump] at hi
        obtain hready | hu := hs.unready i d hi
        · exact Or.inl (hreg ▸ hready)
        · exact absurd (htold hu) (by omega)
  | subscribe d hj =>
    exact hs.put (by rintro d seen ⟨⟩; exact le_rfl) (by rintro d seen ⟨⟩)
  | pass hj hr => exact hs.put (by rintro d seen ⟨⟩) (by rintro d seen ⟨⟩)
  | sleep hj hr =>
    refine hs.put (by rintro d seen ⟨⟩) ?_
    rintro d seen ⟨⟩
    exact ⟨hs.looking _ _ _ hj, hr⟩
  | wake hj hne => exact hs.put (by rintro d seen ⟨⟩; exact le_rfl) (by rintro d seen ⟨⟩)
  | leave j => exact hs.put (by rintro d seen ⟨⟩) (by rintro d seen ⟨⟩)

theorem vigilant_trace (h : Trace (Step attempt ready) s es t) (hs : Vigilant ready s) :
    Vigilant ready t :=
  h.invariant (fun _ _ _ hstep => vigilant_step hstep) hs

/-! ### From ready to done -/

/-- The steps that a waiter still has to make once what it waits for is there. -/
def Waiter.rounds : Waiter D → ℕ
  | .asleep _ _ => 2
  | .looking _ _ => 1
  | .idle | .done _ => 0

/-- What a waiter waits for, or has waited for. -/
def Waiter.target : Waiter D → Option D
  | .idle => none
  | .looking d _ | .asleep d _ | .done d => some d

theorem Waiter.rounds_le (w : Waiter D) : w.rounds ≤ 2 := by
  cases w <;> simp [rounds]

theorem Waiter.eq_done {w : Waiter D} (hd : w.target = some d) (h : w.rounds = 0) :
    w = .done d := by
  cases w <;> simp_all [target, rounds]

/-- The steps of one waiter on its way. -/
def Event.own (j : ℕ) : Event V O D → Bool
  | .look i | .wake i => i = j
  | _ => false

/-- The register is ready for good once it is. -/
def Steady (attempt : O → V → Option V) (ready : D → V → Prop) : Prop :=
  ∀ d o v v', attempt o v = some v' → ready d v → ready d v'

theorem ready_step (hsteady : Steady attempt ready) (h : Step attempt ready s e t)
    (hr : ready d s.cell.reg) : ready d t.cell.reg := by
  cases h with
  | cell hcell =>
    obtain ⟨hreg, -⟩ | ⟨i, o, -, hnext⟩ := CasLoop.step_reg hcell
    · exact hreg ▸ hr
    · exact hsteady d o _ _ hnext hr
  | _ => exact hr

theorem ready_trace (hsteady : Steady attempt ready) (h : Trace (Step attempt ready) s es t)
    (hr : ready d s.cell.reg) : ready d t.cell.reg :=
  h.invariant (P := fun u => ready d u.cell.reg) (fun _ _ _ => ready_step hsteady) hr

theorem State.put_eq_done {i : ℕ} {w : Waiter D} (h : (s.put j w).waiters i = .done d) :
    w = .done d ∨ s.waiters i = .done d := by
  by_cases hij : i = j
  · rw [hij, put_self] at h
    exact Or.inl h
  · rw [put_of_ne hij] at h
    exact Or.inr h

/-- No one is done before the register is ready. -/
theorem done_step (hsteady : Steady attempt ready) (h : Step attempt ready s e t)
    (hs : ∀ j d, s.waiters j = .done d → ready d s.cell.reg) :
    ∀ j d, t.waiters j = .done d → ready d t.cell.reg := by
  intro i d hi
  cases h with
  | cell hcell => exact ready_step hsteady (.cell hcell) (hs i d hi)
  | pass hj hr =>
    obtain ⟨⟨⟩⟩ | hbefore := State.put_eq_done hi
    · exact hr
    · exact hs i d hbefore
  | _ =>
    obtain ⟨⟨⟩⟩ | hbefore := State.put_eq_done hi
    exact hs i d hbefore

theorem done_trace (hsteady : Steady attempt ready) (h : Trace (Step attempt ready) s es t)
    (hs : ∀ j d, s.waiters j = .done d → ready d s.cell.reg) :
    ∀ j d, t.waiters j = .done d → ready d t.cell.reg :=
  h.invariant (P := fun u => ∀ j d, u.waiters j = .done d → ready d u.cell.reg)
    (fun _ _ _ => done_step hsteady) hs

/-- Once the register is ready every own step of a waiter brings it one step nearer, whatever
the others do in between. -/
theorem rounds_step (h : Step attempt ready s e t)
    (hr : ready d s.cell.reg) (hd : (s.waiters j).target = some d) (hstay : e ≠ .leave j) :
    (t.waiters j).target = some d ∧
      (t.waiters j).rounds + (e.own j).toNat = (s.waiters j).rounds := by
  have hother : ∀ {i : ℕ} (w : Waiter D), j ≠ i → (s.put i w).waiters j = s.waiters j :=
    fun w hne => State.put_of_ne hne
  cases h with
  | cell hcell => exact ⟨hd, rfl⟩
  | @subscribe i d' hi =>
    have hne : j ≠ i := by
      rintro rfl
      rw [hi] at hd
      cases hd
    rw [hother _ hne]
    exact ⟨hd, rfl⟩
  | @pass i seen d' hi hready =>
    by_cases hij : j = i
    · subst hij
      rw [hi] at hd
      cases hd
      rw [State.put_self, hi]
      simp [Waiter.target, Waiter.rounds, Event.own]
    · rw [hother _ hij]
      simp [hd, Event.own, Ne.symm hij]
  | @sleep i seen d' hi hready =>
    by_cases hij : j = i
    · subst hij
      rw [hi] at hd
      cases hd
      exact absurd hr hready
    · rw [hother _ hij]
      simp [hd, Event.own, Ne.symm hij]
  | @wake i seen d' hi hne =>
    by_cases hij : j = i
    · subst hij
      rw [hi] at hd
      cases hd
      rw [State.put_self, hi]
      simp [Waiter.target, Waiter.rounds, Event.own]
    · rw [hother _ hij]
      simp [hd, Event.own, Ne.symm hij]
  | leave i =>
    have hij : j ≠ i := by
      rintro rfl
      exact hstay rfl
    rw [hother _ hij]
    exact ⟨hd, rfl⟩

/-- Along a run the own steps of a waiter, and nothing else, use up what it had to make. -/
theorem rounds_trace (hsteady : Steady attempt ready) (h : Trace (Step attempt ready) s es t)
    (hr : ready d s.cell.reg) (hd : (s.waiters j).target = some d) (hstay : .leave j ∉ es) :
    (t.waiters j).target = some d ∧
      (t.waiters j).rounds + es.countP (Event.own j) = (s.waiters j).rounds := by
  induction h with
  | refl => exact ⟨hd, rfl⟩
  | @snoc es e u t hbefore hstep ih =>
    rw [List.mem_append, List.mem_singleton, not_or] at hstay
    obtain ⟨hu, hrounds⟩ := ih hstay.1
    obtain ⟨ht, hone⟩ :=
      rounds_step hstep (ready_trace hsteady hbefore hr) hu (fun h => hstay.2 h.symm)
    refine ⟨ht, ?_⟩
    have hown : (if e.own j = true then 1 else 0) = (e.own j).toNat := by
      cases e.own j <;> rfl
    rw [List.countP_append, List.countP_singleton, hown]
    omega

/-- No wakeup is lost: when every call has told the waiters what it wrote, no waiter for which the
register is ready sleeps on the present version. -/
theorem Vigilant.version_ne (hs : Vigilant ready s) (htold : ¬ Untold s.cell)
    (hw : s.waiters j = .asleep d seen) (hr : ready d s.cell.reg) : s.version ≠ seen := by
  rintro rfl
  obtain hready | hu := hs.unready j d hw
  · exact hready hr
  · exact htold hu

/-- With nobody else moving, a waiter for which the register is ready gets done. -/
theorem exists_done (hs : Vigilant ready s) (htold : ¬ Untold s.cell) (hr : ready d s.cell.reg)
    (hd : (s.waiters j).target = some d) :
    ∃ es t, Trace (Step attempt ready) s es t ∧ (∀ e ∈ es, e.own j = true) ∧
      t.waiters j = .done d ∧ t.cell = s.cell ∧ es.length ≤ 2 := by
  cases hw : s.waiters j with
  | idle =>
    rw [hw] at hd
    cases hd
  | done d' =>
    rw [hw] at hd
    cases hd
    exact ⟨[], s, .refl, by simp, hw, rfl, by simp⟩
  | looking d' seen =>
    rw [hw] at hd
    cases hd
    exact ⟨_, _, .snoc .refl (.pass hw hr), by simp [Event.own], State.put_self .., rfl, by simp⟩
  | asleep d' seen =>
    rw [hw] at hd
    cases hd
    refine ⟨_, _, .snoc (.snoc .refl (.wake hw (hs.version_ne htold hw hr)))
      (.pass (State.put_self ..) hr), ?_, State.put_self .., rfl, by simp⟩
    simp [Event.own]

/-! ### With the step that starts to wait -/

/-- A step of another waiter or of a call does not change what a waiter waits for. -/
theorem target_step (h : Step attempt ready s e t) (hd : (t.waiters j).target = some d) :
    (s.waiters j).target = some d ∨ e = .subscribe j d := by
  cases h with
  | cell hcell => exact Or.inl hd
  | @subscribe i d' hi =>
    by_cases hij : j = i
    · subst hij
      rw [State.put_self] at hd
      cases hd
      exact Or.inr rfl
    · rw [State.put_of_ne hij] at hd
      exact Or.inl hd
  | @pass i seen d' hi hr | @sleep i seen d' hi hr | @wake i seen d' hi hr =>
    by_cases hij : j = i
    · subst hij
      rw [State.put_self] at hd
      rw [hi]
      exact Or.inl hd
    · rw [State.put_of_ne hij] at hd
      exact Or.inl hd
  | leave i =>
    by_cases hij : j = i
    · subst hij
      rw [State.put_self] at hd
      cases hd
    · rw [State.put_of_ne hij] at hd
      exact Or.inl hd

/-- The steps of one waiter, with its subscriptions. -/
def Event.task (j : ℕ) : Event V O D → Bool
  | .subscribe i _ => i = j
  | e => e.own j

theorem Event.task_of_own (h : e.own j = true) : e.task j = true := by
  cases e <;> first | exact h | cases h

/-- The steps to being done, of a waiter that may have to subscribe first. -/
def Waiter.laps : Waiter D → ℕ
  | .idle | .asleep _ _ => 2
  | .looking _ _ => 1
  | .done _ => 0

theorem Waiter.laps_le (w : Waiter D) : w.laps ≤ 2 := by
  cases w <;> simp [laps]

theorem Waiter.laps_eq {w : Waiter D} (hd : w.target = some d) : w.laps = w.rounds := by
  cases w <;> first | rfl | cases hd

theorem Waiter.eq_idle {w : Waiter D} (hd : w.target = none) : w = .idle := by
  cases w <;> first | rfl | cases hd

theorem laps_step (h : Step attempt ready s e t) (hr : ready d s.cell.reg)
    (hd : ∀ d', (s.waiters j).target = some d' → d' = d) (hstay : e ≠ .leave j) :
    (t.waiters j).laps + (e.task j).toNat ≤ (s.waiters j).laps := by
  cases htarget : (s.waiters j).target with
  | some d' =>
    obtain rfl := hd d' htarget
    obtain ⟨ht, hrounds⟩ := rounds_step h hr htarget hstay
    rw [Waiter.laps_eq ht, Waiter.laps_eq htarget, ← hrounds]
    cases h with
    | @subscribe i d'' hi =>
      have hij : i ≠ j := by
        rintro rfl
        rw [hi] at htarget
        cases htarget
      simp [Event.task, Event.own, hij]
    | _ => exact le_rfl
  | none =>
    have hidle := Waiter.eq_idle htarget
    rw [hidle]
    cases h with
    | cell hcell => exact (congrArg Waiter.laps hidle).le
    | @subscribe i d'' hi =>
      by_cases hij : j = i
      · subst hij
        rw [State.put_self]
        simp [Event.task, Waiter.laps]
      · rw [State.put_of_ne hij, hidle]
        simp [Event.task, Ne.symm hij]
    | @pass i seen d'' hi hready | @sleep i seen d'' hi hready | @wake i seen d'' hi hne =>
      have hij : j ≠ i := by
        rintro rfl
        rw [hi] at hidle
        cases hidle
      rw [State.put_of_ne hij, hidle]
      simp [Event.task, Event.own, Ne.symm hij]
    | leave i =>
      have hij : j ≠ i := by
        rintro rfl
        exact hstay rfl
      rw [State.put_of_ne hij, hidle]
      exact le_rfl

/-- With nobody else moving, a waiter for which the register is ready gets done, and subscribes
first if it has not done so. -/
theorem exists_waited (hs : Vigilant ready s) (htold : ¬ Untold s.cell) (hr : ready d s.cell.reg)
    (hd : ∀ d', (s.waiters j).target = some d' → d' = d) :
    ∃ es t, Trace (Step attempt ready) s es t ∧
      (∀ e ∈ es, e.task j = true ∧ e ≠ .leave j ∧ ∀ d', e = .subscribe j d' → d' = d) ∧
      t.waiters j = .done d ∧ t.cell = s.cell := by
  have howned : ∀ {e : Event V O D}, e.own j = true →
      e.task j = true ∧ e ≠ .leave j ∧ ∀ d', e = .subscribe j d' → d' = d := by
    intro e he
    refine ⟨Event.task_of_own he, ?_, ?_⟩
    · rintro rfl
      cases he
    · rintro d' rfl
      cases he
  cases htarget : (s.waiters j).target with
  | some d' =>
    obtain rfl := hd d' htarget
    obtain ⟨es, t, htrace, hown, hdone, hcell, -⟩ := exists_done hs htold hr htarget
    exact ⟨es, t, htrace, fun e he => howned (hown e he), hdone, hcell⟩
  | none =>
    have hstep : Step attempt ready s (.subscribe j d) _ :=
      .subscribe d (Waiter.eq_idle htarget)
    obtain ⟨es, t, htrace, hown, hdone, hcell, -⟩ := exists_done (vigilant_step hstep hs) htold hr
      (show (State.waiters _ j).target = some d by rw [State.put_self]; rfl)
    refine ⟨.subscribe j d :: es, t, htrace.cons hstep, ?_, hdone, hcell⟩
    rintro e (_ | ⟨_, he⟩)
    · refine ⟨by simp [Event.task], by rintro ⟨⟩, ?_⟩
      rintro d' ⟨⟩
      rfl
    · exact howned (hown e he)

end Watch
