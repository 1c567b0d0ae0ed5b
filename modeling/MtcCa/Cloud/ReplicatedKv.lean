import MtcCa.Cloud.Types
import MtcCa.Lib.FiniteMap
import MtcCa.Lib.Outcome

/-! The key-value abstraction and its in-memory backend
(`crates/cloud-types/src/replicated_kv.rs`, `crates/cloud-memory/src/replicated_kv.rs`). A
call holds the one lock for its whole duration, so each is a single step from the items to a
result and new items. -/
namespace Cloud

structure Key where
  str : String
deriving DecidableEq

/-- An attribute value; a structured item is a map of them. -/
inductive Value where
  | bool (b : Bool)
  | u64 (n : UInt64)
  | string (s : String)
  | bytes (b : List UInt8)
  | map (entries : FiniteMap String Value)

/-- Equality of values is decided attribute by attribute. -/
def Value.decEq : (a b : Value) → Decidable (a = b)
  | .bool a, .bool b => decidable_of_iff (a = b) (by simp)
  | .u64 a, .u64 b => decidable_of_iff (a = b) (by simp)
  | .string a, .string b => decidable_of_iff (a = b) (by simp)
  | .bytes a, .bytes b => decidable_of_iff (a = b) (by simp)
  | .map ⟨ks, f⟩, .map ⟨ks', g⟩ =>
    if h : ks = ks' then
      let g' : {k // k ∈ ks} → Value := fun k => g ⟨k.1, h ▸ k.2⟩
      have : ∀ k, Decidable (f k = g' k) := fun k => decEq (f k) (g' k)
      decidable_of_iff (∀ k, f k = g' k) (by
        subst h
        constructor
        · intro hk
          congr
          funext k
          exact hk k
        · intro hk
          cases hk
          exact fun k => rfl)
    else isFalse (by
      intro hk
      cases hk
      exact h rfl)
  | .bool _, .u64 _ | .bool _, .string _ | .bool _, .bytes _ | .bool _, .map _
  | .u64 _, .bool _ | .u64 _, .string _ | .u64 _, .bytes _ | .u64 _, .map _
  | .string _, .bool _ | .string _, .u64 _ | .string _, .bytes _ | .string _, .map _
  | .bytes _, .bool _ | .bytes _, .u64 _ | .bytes _, .string _ | .bytes _, .map _
  | .map _, .bool _ | .map _, .u64 _ | .map _, .string _ | .map _, .bytes _ => isFalse (by simp)

instance : DecidableEq Value := Value.decEq

structure Item where
  key : Key
  value : Value
deriving DecidableEq

/-- A precondition evaluated atomically with a write. -/
inductive Condition where
  | notExists
  | exists
  | attributeEquals (attr : String) (expected : Value)
deriving DecidableEq

inductive UpdateAction where
  | set (attr : String) (value : Value)
  | increment (attr : String) (amount : UInt64)
  | remove (attr : String)
deriving DecidableEq

/-- Actions applied in order to one item. -/
structure UpdateExpression where
  actions : List UpdateAction
deriving DecidableEq

/-- One operation of a transaction. -/
inductive Operation where
  | put (key : Key) (value : Value) (conditions : List Condition)
  | update (key : Key) (expr : UpdateExpression) (conditions : List Condition)
  | delete (key : Key) (conditions : List Condition)
  | conditionCheck (key : Key) (conditions : List Condition)
deriving DecidableEq

/-- The escape of one character in Rust's debug rendering of a string; characters beyond
ASCII are rendered as themselves. -/
def escapeDebug (c : Char) : String :=
  if c = '\x00' then "\\0"
  else if c = '\t' then "\\t"
  else if c = '\r' then "\\r"
  else if c = '\n' then "\\n"
  else if c = '"' then "\\\""
  else if c = '\\' then "\\\\"
  else if c.val < 0x20 ∨ c.val = 0x7f then
    "\\u\x7b" ++ String.ofList (Nat.toDigits 16 c.toNat) ++ "\x7d"
  else c.toString

/-- The `:?` rendering of a string. -/
def debug (s : String) : String :=
  "\"" ++ (s.toList.map escapeDebug).foldl (· ++ ·) "" ++ "\""

abbrev Store := FiniteMap Key Value

/-- What an attribute condition compares: the whole value for the empty name, else the
entry of a map. -/
def attributeValue (value : Option Value) (attr : String) : Option Value :=
  match value with
  | none => none
  | some v =>
    if attr.isEmpty then some v
    else
      match v with
      | .map entries => entries.get? attr
      | _ => none

def checkCondition (value : Option Value) (condition : Condition) : Except CloudError Unit :=
  match condition with
  | .notExists =>
    if value.isSome then .error (.conditionFailed "item already exists") else .ok ()
  | .exists =>
    if value.isNone then .error (.conditionFailed "item does not exist") else .ok ()
  | .attributeEquals attr expected =>
    if attributeValue value attr ≠ some expected then
      .error (.conditionFailed
        ("attribute " ++ debug attr ++ " did not match expected value"))
    else .ok ()

/-- Evaluates every condition against the value before the write, up to the first violation. -/
def checkConditions (value : Option Value) (conditions : List Condition) :
    Except CloudError Unit :=
  conditions.forM (checkCondition value)

def applyUpdateAction (entries : FiniteMap String Value) (action : UpdateAction) :
    Except CloudError (FiniteMap String Value) :=
  match action with
  | .set attr value => .ok (entries.insert attr value)
  | .increment attr amount =>
    match entries.get? attr with
    | some (.u64 current) =>
      if current.toNat + amount.toNat < 2 ^ 64 then
        .ok (entries.insert attr (.u64 (current + amount)))
      else .error (.conditionFailed
        ("attribute " ++ debug attr ++ " would overflow u64"))
    | _ => .error (.conditionFailed
        ("attribute " ++ debug attr ++ " is not a U64 attribute"))
  | .remove attr => .ok (entries.erase attr)

/-- Applies the actions in order to a map-valued item. -/
def applyUpdateActions (existing : Value) (expr : UpdateExpression) : Except CloudError Value :=
  match existing with
  | .map entries => do
    let entries ← expr.actions.foldlM applyUpdateAction entries
    .ok (.map entries)
  | _ => .error (.conditionFailed "atomic_update requires a Map-valued item")

section conditions

variable {value : Option Value} {conditions : List Condition} {e : CloudError}

theorem checkConditions_cons {c : Condition} :
    checkConditions value (c :: conditions) =
      checkCondition value c >>= fun _ => checkConditions value conditions := rfl

theorem checkConditions_eq_ok_iff :
    checkConditions value conditions = .ok () ↔
      ∀ c ∈ conditions, checkCondition value c = .ok () := by
  induction conditions with
  | nil => simp [checkConditions, pure, Except.pure]
  | cons c cs ih =>
    rw [checkConditions_cons, Outcome.bind_eq_ok_iff, List.forall_mem_cons]
    constructor
    · rintro ⟨⟨⟩, hc, hcs⟩
      exact ⟨hc, ih.mp hcs⟩
    · rintro ⟨hc, hcs⟩
      exact ⟨(), hc, ih.mpr hcs⟩

theorem checkCondition_attributeEquals_iff {attr : String} {expected : Value} :
    checkCondition value (.attributeEquals attr expected) = .ok () ↔
      attributeValue value attr = some expected := by
  simp [checkCondition]

theorem checkCondition_error {c : Condition} (h : checkCondition value c = .error e) :
    ∃ reason, e = .conditionFailed reason := by
  cases c with
  | notExists =>
    simp only [checkCondition] at h
    split at h <;> cases h
    exact ⟨_, rfl⟩
  | «exists» =>
    simp only [checkCondition] at h
    split at h <;> cases h
    exact ⟨_, rfl⟩
  | attributeEquals attr expected =>
    simp only [checkCondition] at h
    split at h <;> cases h
    exact ⟨_, rfl⟩

/-- A violated condition is always reported as such. -/
theorem checkConditions_error (h : checkConditions value conditions = .error e) :
    ∃ reason, e = .conditionFailed reason := by
  induction conditions with
  | nil => cases h
  | cons c cs ih =>
    rw [checkConditions_cons, Outcome.bind_eq_error_iff] at h
    rcases h with hc | ⟨⟨⟩, -, hcs⟩
    · exact checkCondition_error hc
    · exact ih hcs

end conditions

namespace MemoryReplicatedKv

def get (items : Store) (key : Key) : Except CloudError Item :=
  match items.get? key with
  | some value => .ok ⟨key, value⟩
  | none => .error (.notFound key.str)

def put (items : Store) (key : Key) (value : Value) (conditions : List Condition) :
    Except CloudError Unit × Store :=
  match checkConditions (items.get? key) conditions with
  | .error e => (.error e, items)
  | .ok () => (.ok (), items.insert key value)

/-- Existence is checked before the conditions. -/
def atomicUpdate (items : Store) (key : Key) (expr : UpdateExpression)
    (conditions : List Condition) : Except CloudError Item × Store :=
  match items.get? key with
  | none => (.error (.notFound key.str), items)
  | some existing =>
    match checkConditions (some existing) conditions with
    | .error e => (.error e, items)
    | .ok () =>
      match applyUpdateActions existing expr with
      | .error e => (.error e, items)
      | .ok updated => (.ok ⟨key, updated⟩, items.insert key updated)

section cases

variable (items : Store) (key : Key) (conditions : List Condition)

/-- A put lands under its conditions, or changes nothing. -/
theorem put_cases (value : Value) :
    (checkConditions (items.get? key) conditions = .ok () ∧
      put items key value conditions = (.ok (), items.insert key value)) ∨
    ∃ reason, put items key value conditions = (.error (.conditionFailed reason), items) := by
  unfold put
  cases h : checkConditions (items.get? key) conditions with
  | error e =>
    obtain ⟨reason, rfl⟩ := checkConditions_error h
    exact Or.inr ⟨reason, rfl⟩
  | ok u => exact Or.inl ⟨rfl, rfl⟩

/-- An update lands under its conditions on a map-valued item, or changes nothing. -/
theorem atomicUpdate_cases (expr : UpdateExpression) :
    (∃ entries entries', items.get? key = some (.map entries) ∧
      checkConditions (some (.map entries)) conditions = .ok () ∧
      expr.actions.foldlM applyUpdateAction entries = .ok entries' ∧
      atomicUpdate items key expr conditions =
        (.ok ⟨key, .map entries'⟩, items.insert key (.map entries'))) ∨
    ∃ e, atomicUpdate items key expr conditions = (.error e, items) := by
  unfold atomicUpdate
  cases hget : items.get? key with
  | none => exact Or.inr ⟨_, rfl⟩
  | some existing =>
    cases hcond : checkConditions (some existing) conditions with
    | error e => exact Or.inr ⟨e, by simp only [hcond]⟩
    | ok u =>
      cases hupd : applyUpdateActions existing expr with
      | error e => exact Or.inr ⟨e, by simp only [hcond, hupd]⟩
      | ok updated =>
        cases existing with
        | map entries =>
          obtain ⟨entries', hfold, hok⟩ := Outcome.bind_eq_ok_iff.mp hupd
          cases hok
          exact Or.inl ⟨entries, entries', rfl, hcond, hfold, by simp only [hcond, hupd]⟩
        | bool b => cases hupd
        | u64 n => cases hupd
        | string s => cases hupd
        | bytes b => cases hupd

end cases

/-- The effect of a validated operation, fixed before anything is written. -/
inductive PlannedWrite where
  | put (key : Key) (value : Value)
  | delete (key : Key)
  | noOp
deriving DecidableEq

/-- Pass 1 for one operation, against the items before the transaction. -/
def plan (items : Store) (op : Operation) : Except CloudError PlannedWrite := do
  match op with
  | .put key value conditions =>
    checkConditions (items.get? key) conditions
    .ok (.put key value)
  | .update key expr conditions =>
    checkConditions (items.get? key) conditions
    match items.get? key with
    | none => .error (.conditionFailed (key.str ++ ": item does not exist"))
    | some existing =>
      let updated ← applyUpdateActions existing expr
      .ok (.put key updated)
  | .delete key conditions =>
    checkConditions (items.get? key) conditions
    .ok (.delete key)
  | .conditionCheck key conditions =>
    checkConditions (items.get? key) conditions
    .ok .noOp

/-- Pass 2 for one planned write. -/
def PlannedWrite.apply (items : Store) (step : PlannedWrite) : Store :=
  match step with
  | .put key value => items.insert key value
  | .delete key => items.erase key
  | .noOp => items

/-- Validates every operation against the snapshot, then applies them all. -/
def transact (items : Store) (ops : List Operation) : Except CloudError Unit × Store :=
  match ops.mapM (plan items) with
  | .error e => (.error e, items)
  | .ok planned => (.ok (), planned.foldl PlannedWrite.apply items)

end MemoryReplicatedKv

end Cloud
