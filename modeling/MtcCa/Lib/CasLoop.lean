import MtcCa.Lib.Transition

/-! A register that calls change by a load and a compare-exchange that is retried until it
succeeds, or until there is nothing to write. The calls run in any interleaving of these steps. -/
namespace CasLoop

open Transition

variable {V O : Type} {attempt : O → V → Option V}

/-- How a call ended: it replaced `old` by `new`, or it gave up on `current`. -/
inductive Outcome (V : Type) where
  | wrote (old new : V)
  | gaveUp (current : V)
deriving DecidableEq

/-- Where a call is. -/
inductive Phase (V O : Type) where
  | idle
  | invoked (o : O)
  | holding (o : O) (current : V)
  | wrote (o : O) (old new : V)
  | returned
deriving DecidableEq

/-- The register, and the calls that there may be. -/
structure State (V O : Type) where
  reg : V
  calls : ℕ → Phase V O

def State.init (v : V) : State V O := ⟨v, fun _ => .idle⟩

def State.update (s : State V O) (i : ℕ) (reg : V) (p : Phase V O) : State V O :=
  ⟨reg, Function.update s.calls i p⟩

theorem State.update_self (s : State V O) (i : ℕ) (reg : V) (p : Phase V O) :
    (s.update i reg p).calls i = p := by
  change Function.update s.calls i p i = p
  rw [Function.update_self]

theorem State.update_of_ne {s : State V O} {i j : ℕ} {reg : V} {p : Phase V O} (h : j ≠ i) :
    (s.update i reg p).calls j = s.calls j := by
  change Function.update s.calls i p j = s.calls j
  rw [Function.update_of_ne h]

/-- The steps of a call, by its number. -/
inductive Event (V O : Type) where
  | invoked (i : ℕ) (o : O)
  | loaded (i : ℕ)
  | swapped (i : ℕ) (o : O) (old new : V)
  | refused (i : ℕ)
  | returned (i : ℕ) (o : O) (outcome : Outcome V)
deriving DecidableEq

/-- One step of one call: what it does to the register and to where the call is. A
compare-exchange that finds another value goes on with that one. -/
inductive Move (attempt : O → V → Option V) (i : ℕ) (reg : V) :
    Phase V O → Event V O → V → Phase V O → Prop where
  | invoke (o : O) : Move attempt i reg .idle (.invoked i o) reg (.invoked o)
  | load {o : O} : Move attempt i reg (.invoked o) (.loaded i) reg (.holding o reg)
  | swap {o : O} {next : V} (hnext : attempt o reg = some next) :
      Move attempt i reg (.holding o reg) (.swapped i o reg next) next (.wrote o reg next)
  | refuse {o : O} {current next : V} (hnext : attempt o current = some next)
      (hne : reg ≠ current) :
      Move attempt i reg (.holding o current) (.refused i) reg (.holding o reg)
  | giveUp {o : O} {current : V} (hnext : attempt o current = none) :
      Move attempt i reg (.holding o current) (.returned i o (.gaveUp current)) reg .returned
  | ret {o : O} {old new : V} :
      Move attempt i reg (.wrote o old new) (.returned i o (.wrote old new)) reg .returned

/-- A step of some call. -/
inductive Step (attempt : O → V → Option V) (s : State V O) (e : Event V O) :
    State V O → Prop where
  | of (i : ℕ) {reg : V} {p : Phase V O} (h : Move attempt i s.reg (s.calls i) e reg p) :
      Step attempt s e (s.update i reg p)

variable {s t : State V O} {e : Event V O} {es fs : List (Event V O)} {v v' : V} {i : ℕ} {o : O}
  {old new : V}

/-- The register changes with a successful compare-exchange and with no other step. -/
theorem step_reg (h : Step attempt s e t) :
    (t.reg = s.reg ∧ ∀ i o old new, e ≠ .swapped i o old new) ∨
      ∃ i o, e = .swapped i o s.reg t.reg ∧ attempt o s.reg = some t.reg := by
  obtain ⟨j, hmove⟩ := h
  generalize s.calls j = q at hmove
  cases hmove with
  | swap hnext => exact Or.inr ⟨j, _, rfl, hnext⟩
  | _ =>
    refine Or.inl ⟨rfl, ?_⟩
    rintro i o old new ⟨⟩

/-! ### The values of the register -/

/-- An order that every write respects is the order of time. -/
theorem reg_rel {le : V → V → Prop} (hrefl : ∀ v, le v v)
    (htrans : ∀ u v w, le u v → le v w → le u w)
    (hle : ∀ o v w, attempt o v = some w → le v w) (h : Trace (Step attempt) s es t) :
    le s.reg t.reg := by
  induction h with
  | refl => exact hrefl _
  | snoc _ hstep ih =>
    rcases step_reg hstep with ⟨hreg, -⟩ | ⟨i, o, -, hnext⟩
    · rw [hreg]
      exact ih
    · exact htrans _ _ _ ih (hle o _ _ hnext)

/-- The write of a successful compare-exchange. -/
def Event.write : Event V O → Option (ℕ × O × V × V)
  | .swapped i o old new => some (i, o, old, new)
  | _ => none

/-- The writes of a run lead from one value to another, each from the value before it. -/
inductive Writes (attempt : O → V → Option V) (v : V) : List (ℕ × O × V × V) → V → Prop where
  | nil : Writes attempt v [] v
  | snoc {ws : List (ℕ × O × V × V)} {old new : V} (i : ℕ) (o : O) (h : Writes attempt v ws old)
      (hnext : attempt o old = some new) : Writes attempt v (ws ++ [(i, o, old, new)]) new

/-- A run changes the register by the writes in it, one after the other. -/
theorem writes_of_trace (h : Trace (Step attempt) s es t) :
    Writes attempt s.reg (es.filterMap Event.write) t.reg := by
  induction h with
  | refl => exact .nil
  | @snoc es e t u _ hstep ih =>
    rw [List.filterMap_append]
    rcases step_reg hstep with ⟨hreg, hne⟩ | ⟨i, o, rfl, hnext⟩
    · have hnone : e.write = none := by
        cases e with
        | swapped i o old new => exact (hne i o old new rfl).elim
        | _ => rfl
      rw [List.filterMap_cons_none hnone, List.filterMap_nil, List.append_nil, hreg]
      exact ih
    · exact .snoc i o ih hnext

/-! ### The history of a call -/

/-- The call that an event belongs to. -/
def Event.call : Event V O → ℕ
  | .invoked i _ => i
  | .loaded i => i
  | .swapped i _ _ _ => i
  | .refused i => i
  | .returned i _ _ => i

/-- The return of a call. -/
def Event.ret : Event V O → Option (ℕ × O × Outcome V)
  | .returned i o outcome => some (i, o, outcome)
  | _ => none

def writesOf (i : ℕ) (es : List (Event V O)) : List (ℕ × O × V × V) :=
  (es.filterMap Event.write).filter (fun w => w.1 = i)

def returnsOf (i : ℕ) (es : List (Event V O)) : List (ℕ × O × Outcome V) :=
  (es.filterMap Event.ret).filter (fun r => r.1 = i)

/-- The writes that a call with this outcome has made. -/
def Outcome.writes (i : ℕ) (o : O) : Outcome V → List (ℕ × O × V × V)
  | .wrote old new => [(i, o, old, new)]
  | .gaveUp _ => []

/-- The register had the value at some point of the run. -/
def Reached (attempt : O → V → Option V) (s : State V O) (es : List (Event V O)) (v : V) : Prop :=
  ∃ as m bs, es = as ++ bs ∧ Trace (Step attempt) s as m ∧ m.reg = v

theorem Reached.append (h : Reached attempt s es v) (fs : List (Event V O)) :
    Reached attempt s (es ++ fs) v := by
  obtain ⟨as, m, bs, rfl, hm, hv⟩ := h
  exact ⟨as, m, bs ++ fs, List.append_assoc as bs fs, hm, hv⟩

theorem reached_of_trace (h : Trace (Step attempt) s es t) : Reached attempt s es t.reg :=
  ⟨es, t, [], (List.append_nil es).symm, h, rfl⟩

/-- What the events so far say about a call at this point of it. -/
inductive Tells (attempt : O → V → Option V) (s : State V O) (i : ℕ) (es : List (Event V O)) :
    Phase V O → Prop where
  | idle (hw : writesOf i es = []) (hr : returnsOf i es = []) : Tells attempt s i es .idle
  | invoked {o : O} (hw : writesOf i es = []) (hr : returnsOf i es = [])
      (ho : .invoked i o ∈ es) : Tells attempt s i es (.invoked o)
  | holding {o : O} {current : V} (hw : writesOf i es = []) (hr : returnsOf i es = [])
      (ho : .invoked i o ∈ es) (hc : Reached attempt s es current) :
      Tells attempt s i es (.holding o current)
  | wrote {o : O} {old new : V} (hw : writesOf i es = [(i, o, old, new)])
      (hr : returnsOf i es = []) (ho : .invoked i o ∈ es) (hn : attempt o old = some new) :
      Tells attempt s i es (.wrote o old new)
  | returned {o : O} {outcome : Outcome V} (hw : writesOf i es = outcome.writes i o)
      (hr : returnsOf i es = [(i, o, outcome)]) (ho : .invoked i o ∈ es)
      (hn : ∀ old new, outcome = .wrote old new → attempt o old = some new)
      (hg : ∀ current, outcome = .gaveUp current →
        attempt o current = none ∧ Reached attempt s es current) :
      Tells attempt s i es .returned

theorem writesOf_append (es : List (Event V O)) (e : Event V O) :
    writesOf i (es ++ [e]) = writesOf i es ++ (e.write.toList.filter (fun w => w.1 = i)) := by
  unfold writesOf
  rw [List.filterMap_append, List.filter_append]
  cases e <;> rfl

theorem returnsOf_append (es : List (Event V O)) (e : Event V O) :
    returnsOf i (es ++ [e]) = returnsOf i es ++ (e.ret.toList.filter (fun r => r.1 = i)) := by
  unfold returnsOf
  rw [List.filterMap_append, List.filter_append]
  cases e <;> rfl

theorem writesOf_append_of_none (es : List (Event V O)) {e : Event V O} (h : e.write = none) :
    writesOf i (es ++ [e]) = writesOf i es := by
  rw [writesOf_append, h]
  exact List.append_nil _

theorem returnsOf_append_of_none (es : List (Event V O)) {e : Event V O} (h : e.ret = none) :
    returnsOf i (es ++ [e]) = returnsOf i es := by
  rw [returnsOf_append, h]
  exact List.append_nil _

/-- A step of one call tells nothing new about another. -/
theorem Tells.of_other {p : Phase V O} (h : Tells attempt s i es p) {e : Event V O}
    (hne : e.call ≠ i) : Tells attempt s i (es ++ [e]) p := by
  have hw : writesOf i (es ++ [e]) = writesOf i es := by
    rw [writesOf_append]
    cases e with
    | swapped j o old new =>
      have hj : ¬ j = i := hne
      simp [Event.write, hj]
    | _ => exact List.append_nil _
  have hr : returnsOf i (es ++ [e]) = returnsOf i es := by
    rw [returnsOf_append]
    cases e with
    | returned j o outcome =>
      have hj : ¬ j = i := hne
      simp [Event.ret, hj]
    | _ => exact List.append_nil _
  cases h with
  | idle hw' hr' => exact .idle (hw.trans hw') (hr.trans hr')
  | invoked hw' hr' ho => exact .invoked (hw.trans hw') (hr.trans hr') (List.mem_append_left _ ho)
  | holding hw' hr' ho hc =>
    exact .holding (hw.trans hw') (hr.trans hr') (List.mem_append_left _ ho) (hc.append _)
  | wrote hw' hr' ho hn =>
    exact .wrote (hw.trans hw') (hr.trans hr') (List.mem_append_left _ ho) hn
  | returned hw' hr' ho hn hg =>
    refine .returned (hw.trans hw') (hr.trans hr') (List.mem_append_left _ ho) hn ?_
    intro current hout
    exact ⟨(hg current hout).1, (hg current hout).2.append _⟩

/-- What a step tells about the call that takes it. -/
theorem Tells.of_move {s₀ : State V O} {reg : V} {p q : Phase V O}
    (hreg : Reached attempt s₀ es v) (htells : Tells attempt s₀ i es p)
    (hmove : Move attempt i v p e reg q) : Tells attempt s₀ i (es ++ [e]) q := by
  have hlast : e ∈ es ++ [e] := List.mem_append_right es List.mem_cons_self
  cases hmove with
  | invoke o =>
    obtain ⟨hw, hr⟩ := htells
    exact .invoked ((writesOf_append_of_none es rfl).trans hw)
      ((returnsOf_append_of_none es rfl).trans hr) hlast
  | load =>
    cases htells with
    | invoked hw hr ho =>
      exact .holding ((writesOf_append_of_none es rfl).trans hw)
        ((returnsOf_append_of_none es rfl).trans hr) (List.mem_append_left _ ho) (hreg.append _)
  | swap hnext =>
    cases htells with
    | holding hw hr ho hc =>
      refine .wrote ?_ ((returnsOf_append_of_none es rfl).trans hr) (List.mem_append_left _ ho)
        hnext
      rw [writesOf_append, hw]
      simp [Event.write]
  | refuse hnext hne =>
    cases htells with
    | holding hw hr ho hc =>
      exact .holding ((writesOf_append_of_none es rfl).trans hw)
        ((returnsOf_append_of_none es rfl).trans hr) (List.mem_append_left _ ho) (hreg.append _)
  | @giveUp o current hnext =>
    cases htells with
    | holding hw hr ho hc =>
      refine @Tells.returned V O attempt s₀ i _ o (.gaveUp current)
        ((writesOf_append_of_none es rfl).trans hw) ?_ (List.mem_append_left _ ho) ?_ ?_
      · rw [returnsOf_append, hr]
        simp [Event.ret]
      · rintro old new ⟨⟩
      · rintro _ ⟨⟩
        exact ⟨hnext, hc.append _⟩
  | @ret o old new =>
    cases htells with
    | wrote hw hr ho hn =>
      refine @Tells.returned V O attempt s₀ i _ o (.wrote old new)
        ((writesOf_append_of_none es rfl).trans hw) ?_ (List.mem_append_left _ ho) ?_ ?_
      · rw [returnsOf_append, hr]
        simp [Event.ret]
      · rintro _ _ ⟨⟩
        exact hn
      · rintro _ ⟨⟩

theorem Move.call_eq {reg : V} {p q : Phase V O} (h : Move attempt i v p e reg q) :
    e.call = i := by
  cases h <;> rfl

/-- The events of a run tell of every call. -/
theorem tells_of_trace (h : Trace (Step attempt) (State.init v) es t) (i : ℕ) :
    Tells attempt (State.init v) i es (t.calls i) := by
  induction h with
  | refl => exact .idle rfl rfl
  | @snoc es e t u hrun hstep ih =>
    obtain ⟨j, hmove⟩ := hstep
    by_cases hij : i = j
    · subst hij
      rw [State.update_self]
      exact ih.of_move (reached_of_trace hrun) hmove
    · rw [State.update_of_ne hij]
      exact ih.of_other (fun hcall => hij (hcall.symm.trans hmove.call_eq))

/-- A call that returned after a write made that write and no other one. -/
theorem writesOf_of_returned {outcome : Outcome V}
    (h : Trace (Step attempt) (State.init v) es t) (hret : .returned i o outcome ∈ es) :
    writesOf i es = outcome.writes i o ∧ .invoked i o ∈ es ∧
      (∀ old new, outcome = .wrote old new → attempt o old = some new) ∧
      ∀ current, outcome = .gaveUp current →
        attempt o current = none ∧ Reached attempt (State.init v) es current := by
  have hmem : (i, o, outcome) ∈ returnsOf i es :=
    List.mem_filter.mpr ⟨List.mem_filterMap.mpr ⟨_, hret, rfl⟩, decide_eq_true rfl⟩
  have htells := tells_of_trace h i
  generalize t.calls i = p at htells
  cases htells with
  | returned hw hr ho hn hg =>
    rw [hr] at hmem
    cases List.mem_singleton.mp hmem
    exact ⟨hw, ho, hn, hg⟩
  | idle hw hr | invoked hw hr | holding hw hr | wrote hw hr =>
    rw [hr] at hmem
    cases hmem

/-- A completed write happened at one point of the run, on the value that the register had. -/
theorem swapped_of_returned (h : Trace (Step attempt) (State.init v) es t)
    (hret : .returned i o (.wrote old new) ∈ es) :
    ∃ as m m' bs, es = as ++ .swapped i o old new :: bs ∧
      Trace (Step attempt) (State.init v) as m ∧ m.reg = old ∧ m'.reg = new ∧
      Trace (Step attempt) m' bs t := by
  obtain ⟨hw, -⟩ := writesOf_of_returned h hret
  have hmem : (i, o, old, new) ∈ es.filterMap Event.write := by
    apply List.mem_of_mem_filter
    change (i, o, old, new) ∈ writesOf i es
    rw [hw]
    exact List.mem_singleton_self _
  obtain ⟨e, he, hwrite⟩ := List.mem_filterMap.mp hmem
  obtain rfl : e = .swapped i o old new := by
    cases e with
    | swapped j o' old' new' =>
      cases hwrite
      rfl
    | _ => cases hwrite
  obtain ⟨as, m, m', bs, hbefore, hstep, hafter, hes⟩ := h.exists_step_of_mem he
  rcases step_reg hstep with ⟨-, hne⟩ | ⟨j, o', heq, -⟩
  · exact (hne i o old new rfl).elim
  · injection heq with _ _ hold hnew
    exact ⟨as, m, m', bs, hes, hbefore, hold.symm, hnew.symm, hafter⟩

/-! ### When every call has returned -/

/-- The write that a return reports. -/
def completedWrite : ℕ × O × Outcome V → Option (ℕ × O × V × V)
  | (i, o, .wrote old new) => some (i, o, old, new)
  | (_, _, .gaveUp _) => none

def completedWrites (es : List (Event V O)) : List (ℕ × O × V × V) :=
  (es.filterMap Event.ret).filterMap completedWrite

theorem filter_completedWrites (i : ℕ) (es : List (Event V O)) :
    (completedWrites es).filter (fun w => w.1 = i) =
      (returnsOf i es).filterMap completedWrite := by
  rw [completedWrites, returnsOf, List.filter_filterMap, List.filterMap_filter]
  apply List.filterMap_congr
  rintro ⟨j, o, outcome⟩ -
  by_cases hj : j = i <;> cases outcome <;> simp [completedWrite, hj]

/-- No call is between its first step and its return. -/
def Quiet (s : State V O) : Prop := ∀ i, s.calls i = .idle ∨ s.calls i = .returned

/-- When every call that started has returned, the writes made are the writes reported. -/
theorem writes_perm_completedWrites (h : Trace (Step attempt) (State.init v) es t)
    (hquiet : Quiet t) : (es.filterMap Event.write).Perm (completedWrites es) := by
  classical
  apply List.perm_iff_count.mpr
  rintro ⟨i, o, old, new⟩
  have hsame : writesOf i es = (returnsOf i es).filterMap completedWrite := by
    have htells := tells_of_trace h i
    rcases hquiet i with hi | hi
    · rw [hi] at htells
      obtain ⟨hw, hr⟩ := htells
      rw [hw, hr, List.filterMap_nil]
    · rw [hi] at htells
      cases htells with
      | @returned o outcome hw hr ho hn hg =>
        rw [hw, hr]
        cases outcome <;> rfl
  rw [← filter_completedWrites] at hsame
  have hfilter (ws : List (ℕ × O × V × V)) :
      (ws.filter (fun w => w.1 = i)).count (i, o, old, new) = ws.count (i, o, old, new) :=
    List.count_filter (decide_eq_true rfl)
  calc (es.filterMap Event.write).count (i, o, old, new)
      = (writesOf i es).count (i, o, old, new) := (hfilter _).symm
    _ = ((completedWrites es).filter (fun w => w.1 = i)).count (i, o, old, new) := by rw [hsame]
    _ = (completedWrites es).count (i, o, old, new) := hfilter _

end CasLoop
