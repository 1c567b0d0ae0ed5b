import MtcCa.Cloud.ObjectStore
import MtcCa.Lib.Transition

/-! What runs of the in-memory object store keep: retained objects, occupied keys under
create-only writes, and everything under a refused call. -/
namespace Cloud.MemoryObjectStore

open Transition

variable {objects objects' : Objects} {key : String} {data : Blob} {object : StoredObject}
  {now checked stamped T : SystemTime} {c : ObjectCall} {r : Except CloudError ObjectReply}

/-- The key holds nothing that is inside its retention window. -/
def Free (objects : Objects) (key : String) (now : SystemTime) : Prop :=
  ∀ object T, objects.get? key = some object → object.retainUntil = some T → T ≤ now

def ReadOnly : ObjectCall → Prop
  | .get _ | .head _ | .list _ | .getRetention _ => True
  | _ => False

/-- Everything a call can do to the objects. -/
inductive Effect (objects : Objects) (checked stamped : SystemTime) :
    ObjectCall → Except CloudError ObjectReply → Objects → Prop where
  | refused {c : ObjectCall} {e : CloudError} : Effect objects checked stamped c (.error e) objects
  | read {c : ObjectCall} {reply : ObjectReply} : ReadOnly c →
      Effect objects checked stamped c (.ok reply) objects
  | stored {key : String} {data : Blob} {opts : PutOptions} : Free objects key checked →
      (opts.mode = .ifNotExists → objects.get? key = none) →
      Effect objects checked stamped (.put key data opts) (.ok .done)
        (objects.insert key ⟨data, stamped, none⟩)
  | retained {key : String} {data : Blob} {T : SystemTime} : objects.get? key = none →
      Effect objects checked stamped (.putWithRetention key data T) (.ok .done)
        (objects.insert key ⟨data, stamped, some T⟩)
  | extended {key : String} {object : StoredObject} {T T' : SystemTime} :
      objects.get? key = some object → object.retainUntil = some T → T < T' →
      Effect objects checked stamped (.extendRetention key T') (.ok .done)
        (objects.insert key { object with retainUntil := some T' })
  | deleted {key : String} : Free objects key checked →
      Effect objects checked stamped (.delete key) (.ok .done) (objects.erase key)

theorem rejectIfRetained_eq_ok_iff :
    rejectIfRetained object now key = .ok () ↔ ∀ T, object.retainUntil = some T → T ≤ now := by
  unfold rejectIfRetained
  cases object.retainUntil with
  | none => simp
  | some T => simp

theorem free_of_reject (hget : objects.get? key = some object)
    (h : rejectIfRetained object checked key = .ok ()) : Free objects key checked := by
  intro object' T hget' hT
  obtain rfl := Option.some.inj (hget.symm.trans hget')
  exact rejectIfRetained_eq_ok_iff.mp h T hT

theorem admits_eq_ok {opts : PutOptions} (h : admits objects key checked opts = .ok ()) :
    Free objects key checked ∧ (opts.mode = .ifNotExists → objects.get? key = none) := by
  unfold admits at h
  cases hmode : opts.mode with
  | ifNotExists =>
    simp only [hmode, Outcome.ite_error_eq_ok_iff, Option.not_isSome_iff_eq_none, and_true] at h
    refine ⟨?_, fun _ => h⟩
    intro object T hget
    rw [h] at hget
    cases hget
  | overwrite =>
    simp only [hmode] at h
    refine ⟨?_, by simp⟩
    cases hget : objects.get? key with
    | none =>
      intro object T hget'
      rw [hget] at hget'
      cases hget'
    | some object =>
      simp only [hget] at h
      exact free_of_reject hget h

theorem effect_of_put {opts : PutOptions} :
    Effect objects checked stamped (.put key data opts)
      ((put objects key checked stamped data opts).1.map (fun _ => .done))
      (put objects key checked stamped data opts).2 := by
  unfold put
  cases h : admits objects key checked opts with
  | error e => exact .refused
  | ok u =>
    obtain ⟨hfree, hmode⟩ := admits_eq_ok h
    exact .stored hfree hmode

theorem effect_of_delete :
    Effect objects checked stamped (.delete key)
      ((delete objects key checked).1.map (fun _ => .done)) (delete objects key checked).2 := by
  unfold delete
  cases hget : objects.get? key with
  | none => exact .refused
  | some object =>
    dsimp only
    cases h : rejectIfRetained object checked key with
    | error e => exact .refused
    | ok u => exact .deleted (free_of_reject hget h)

theorem effect_of_putWithRetention :
    Effect objects checked stamped (.putWithRetention key data T)
      ((putWithRetention objects key stamped data T).1.map (fun _ => .done))
      (putWithRetention objects key stamped data T).2 := by
  unfold putWithRetention
  split
  · exact .refused
  · next h => exact .retained (Option.not_isSome_iff_eq_none.mp h)

theorem effect_of_extendRetention :
    Effect objects checked stamped (.extendRetention key T)
      ((extendRetention objects key T).1.map (fun _ => .done))
      (extendRetention objects key T).2 := by
  unfold extendRetention
  cases hget : objects.get? key with
  | none => exact .refused
  | some object =>
    dsimp only
    cases hT : object.retainUntil with
    | none => exact .refused
    | some current =>
      dsimp only
      split
      · exact .refused
      · next hlt => exact .extended hget hT (not_le.mp hlt)

theorem effect_of_read (hc : ReadOnly c) : Effect objects checked stamped c r objects := by
  cases r with
  | error e => exact .refused
  | ok reply => exact .read hc

theorem effect_of_call (h : call objects checked stamped c = (r, objects')) :
    Effect objects checked stamped c r objects' := by
  cases c with
  | put =>
    cases h
    exact effect_of_put
  | delete =>
    cases h
    exact effect_of_delete
  | putWithRetention =>
    cases h
    exact effect_of_putWithRetention
  | extendRetention =>
    cases h
    exact effect_of_extendRetention
  | get | head | list | getRetention =>
    cases h
    exact effect_of_read trivial

/-- The store and the latest reading of its clock. -/
structure World where
  objects : Objects
  now : SystemTime

/-- A call with its clock readings and its reply. -/
structure Event where
  call : ObjectCall
  checked : SystemTime
  stamped : SystemTime
  reply : Except CloudError ObjectReply

/-- A call runs to its end under the lock, and the clock never goes backwards. -/
structure Step (w : World) (ev : Event) (w' : World) : Prop where
  now_le : w.now ≤ ev.checked
  checked_le : ev.checked ≤ ev.stamped
  now_eq : w'.now = ev.stamped
  call_eq : call w.objects ev.checked ev.stamped ev.call = (ev.reply, w'.objects)

/-- The key holds these bytes, retained at least until `T`. -/
def Holds (objects : Objects) (key : String) (data : Blob) (T : SystemTime) : Prop :=
  ∃ object T', objects.get? key = some object ∧ object.data = data ∧
    object.retainUntil = some T' ∧ T ≤ T'

theorem holds_effect (h : Effect objects checked stamped c r objects')
    (hs : Holds objects key data T) (hT : checked < T) : Holds objects' key data T := by
  obtain ⟨object, T', hget, hdata, huntil, hle⟩ := hs
  have hkept : objects'.get? key = objects.get? key → Holds objects' key data T := by
    intro hsame
    exact ⟨object, T', hsame.trans hget, hdata, huntil, hle⟩
  have hwithin : ¬ Free objects key checked := by
    intro hfree
    exact absurd (hfree object T' hget huntil) (not_le.mpr (lt_of_lt_of_le hT hle))
  cases h with
  | refused => exact hkept rfl
  | read => exact hkept rfl
  | @stored k _ _ hfree _ =>
    have hne : key ≠ k := by
      rintro rfl
      exact hwithin hfree
    exact hkept (FiniteMap.get?_insert_ne hne)
  | @retained k _ _ hnone =>
    have hne : key ≠ k := by
      rintro rfl
      rw [hget] at hnone
      cases hnone
    exact hkept (FiniteMap.get?_insert_ne hne)
  | @extended k object' U U' hget' huntil' hlt =>
    by_cases hk : key = k
    · subst hk
      obtain rfl := Option.some.inj (hget.symm.trans hget')
      obtain rfl := Option.some.inj (huntil.symm.trans huntil')
      exact ⟨_, U', FiniteMap.get?_insert_self, hdata, rfl, le_trans hle hlt.le⟩
    · exact hkept (FiniteMap.get?_insert_ne hk)
  | @deleted k hfree =>
    have hne : key ≠ k := by
      rintro rfl
      exact hwithin hfree
    exact hkept (FiniteMap.get?_erase_ne hne)

variable {w w' : World} {ev : Event} {events : List Event}

theorem now_step (h : Step w ev w') : w.now ≤ w'.now := by
  rw [h.now_eq]
  exact le_trans h.now_le h.checked_le

theorem holds_step (h : Step w ev w') (hs : Holds w.objects key data T) (hT : w'.now < T) :
    Holds w'.objects key data T := by
  refine holds_effect (effect_of_call h.call_eq) hs ?_
  rw [h.now_eq] at hT
  exact lt_of_le_of_lt h.checked_le hT

theorem holds_trace (h : Trace Step w events w') (hs : Holds w.objects key data T)
    (hT : w'.now < T) : Holds w'.objects key data T := by
  induction h with
  | refl => exact hs
  | snoc _ hstep ih => exact holds_step hstep (ih (lt_of_le_of_lt (now_step hstep) hT)) hT

/-- A create-only call finds its key occupied and is refused. -/
theorem createOnly_step (h : Step w ev w') (hkey : (w.objects.get? key).isSome)
    (hc : ev.call = .put key data ⟨.ifNotExists⟩ ∨ ∃ T, ev.call = .putWithRetention key data T) :
    ev.reply = .error (.alreadyExists key) ∧ w'.objects = w.objects := by
  have hcall := h.call_eq
  rcases hc with hc | ⟨T, hc⟩
  · rw [hc] at hcall
    simp only [call, put, admits, hkey, if_true, Prod.map, id] at hcall
    exact ⟨(Prod.mk.inj hcall).1.symm, (Prod.mk.inj hcall).2.symm⟩
  · rw [hc] at hcall
    simp only [call, putWithRetention, hkey, if_true, Prod.map, id] at hcall
    exact ⟨(Prod.mk.inj hcall).1.symm, (Prod.mk.inj hcall).2.symm⟩

theorem refused_effect {e : CloudError} (h : Effect objects checked stamped c (.error e) objects') :
    objects' = objects := by
  cases h
  rfl

theorem refused_step {e : CloudError} (h : Step w ev w') (he : ev.reply = .error e) :
    w'.objects = w.objects := by
  have heffect := effect_of_call h.call_eq
  rw [he] at heffect
  exact refused_effect heffect

/-- Over any run, an object before its retention instant stays present with its bytes and
that instant never moves back; create-only calls replace nothing, and a refused call changes
nothing. -/
theorem retention_safe (h : Trace Step w events w') :
    (∀ key object T, w.objects.get? key = some object → object.retainUntil = some T →
      w'.now < T → ∃ object' T', w'.objects.get? key = some object' ∧
        object'.data = object.data ∧ object'.retainUntil = some T' ∧ T ≤ T') ∧
    ∀ v ev v', Step v ev v' →
      (∀ key data, (ev.call = .put key data ⟨.ifNotExists⟩ ∨
          ∃ T, ev.call = .putWithRetention key data T) → (v.objects.get? key).isSome →
        ev.reply = .error (.alreadyExists key) ∧ v'.objects = v.objects) ∧
      ∀ e, ev.reply = .error e → v'.objects = v.objects := by
  refine ⟨?_, ?_⟩
  · intro key object T hget huntil hT
    exact holds_trace h ⟨object, T, hget, rfl, huntil, le_refl T⟩ hT
  · intro v ev v' hstep
    refine ⟨?_, fun _ he => refused_step hstep he⟩
    intro key data hc hkey
    exact createOnly_step hstep hkey hc

def sampleBlob : Blob := ⟨[1, 2, 3], by decide⟩

/-- A retained object, one second before its instant. -/
def sampleObjects : Objects :=
  FiniteMap.empty.insert "tile/0" ⟨sampleBlob, ⟨0⟩, some ⟨10 * 10 ^ 9⟩⟩

theorem retention_safe_delete :
    ∃ reply objects', call sampleObjects ⟨9 * 10 ^ 9⟩ ⟨9 * 10 ^ 9⟩ (.delete "tile/0") =
        (reply, objects') ∧ ∃ object T, objects'.get? "tile/0" = some object ∧
      object.data = sampleBlob ∧ object.retainUntil = some T ∧ ⟨10 * 10 ^ 9⟩ ≤ T := by
  refine ⟨_, _, rfl, ?_⟩
  have hstep : Step ⟨sampleObjects, ⟨0⟩⟩ ⟨.delete "tile/0", ⟨9 * 10 ^ 9⟩, ⟨9 * 10 ^ 9⟩, _⟩
      ⟨_, ⟨9 * 10 ^ 9⟩⟩ := ⟨by decide, le_refl _, rfl, rfl⟩
  exact (retention_safe (.snoc .refl hstep)).1 "tile/0" ⟨sampleBlob, ⟨0⟩, some ⟨10 * 10 ^ 9⟩⟩
    ⟨10 * 10 ^ 9⟩ FiniteMap.get?_insert_self rfl (by decide)

end Cloud.MemoryObjectStore
