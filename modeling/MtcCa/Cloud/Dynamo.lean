import MtcCa.Cloud.Types
import MtcCa.Lib.FiniteMap
import MtcCa.Lib.Text

/-! The service behind the DynamoDB backend: items of one table, the expression language of
its requests as far as the backend writes it, and the requests. An expression arrives as text
with placeholders for names and values; a request that does not parse, or names a placeholder
that was not supplied, is a validation error. -/
namespace Cloud.Dynamo

open Text

/-- An attribute value; lists, sets and null, which the backend never writes, appear as their
debug rendering. Numbers travel as text. -/
inductive AttributeValue where
  | bool (b : Bool)
  | n (s : String)
  | s (s : String)
  | b (bytes : List UInt8)
  | m (entries : FiniteMap String AttributeValue)
  | unsupported (debug : String)

/-- The text behind an optional plus sign. -/
def unsigned : List Char → List Char
  | '+' :: cs => cs
  | cs => cs

/-- The natural number a numeral stands for: digits, with an optional plus sign. -/
def numeral (s : String) : Option ℕ :=
  let digits := unsigned s.toList
  if digits ≠ [] ∧ digits.all Char.isDigit then some (Nat.ofDigitChars 10 digits 0) else none

/-- Numbers are compared by value. -/
def sameNumber (a b : String) : Bool :=
  match numeral a, numeral b with
  | some x, some y => x = y
  | _, _ => a = b

def addNumbers (a b : String) : Option String :=
  match numeral a, numeral b with
  | some x, some y => some (Nat.repr (x + y))
  | _, _ => none

namespace AttributeValue

theorem mem_of_keys_eq {ks ks' : Finset String} (h : ks = ks') (k : {k // k ∈ ks}) : k.1 ∈ ks' :=
  h ▸ k.2

/-- Equality as the service compares values; that of maps is deep. -/
def same : AttributeValue → AttributeValue → Bool
  | .bool x, .bool y => x = y
  | .n x, .n y => sameNumber x y
  | .s x, .s y => x = y
  | .b x, .b y => x = y
  | .m ⟨ks, f⟩, .m ⟨ks', g⟩ =>
    if h : ks = ks' then
      let same' : {k // k ∈ ks} → Bool := fun k => same (f k) (g ⟨k.1, mem_of_keys_eq h k⟩)
      decide (∀ k, same' k = true)
    else false
  | .unsupported x, .unsupported y => x = y
  | _, _ => false

/-- The name of a value's type in a type check. -/
def typeName : AttributeValue → String
  | .bool _ => "BOOL"
  | .n _ => "N"
  | .s _ => "S"
  | .b _ => "B"
  | .m _ => "M"
  | .unsupported _ => "L"

end AttributeValue

/-- The attributes of an item, or of a map inside it. -/
abbrev Attributes := FiniteMap String AttributeValue

/-- The partition key and the sort key of an item. -/
structure PrimaryKey where
  pk : String
  sk : String
deriving DecidableEq

theorem PrimaryKey.toLex_injective :
    Function.Injective (fun k : PrimaryKey => toLex (k.pk, k.sk)) := by
  rintro ⟨a, b⟩ ⟨c, d⟩ h
  cases h
  rfl

instance : LinearOrder PrimaryKey := LinearOrder.lift' _ PrimaryKey.toLex_injective

abbrev Table := FiniteMap PrimaryKey Attributes

/-- Placeholders that begin with `#` stand for names, those with `:` for values. -/
def alphabet : Alphabet where
  isWord c := c.isAlphanum || c == '_' || c == '#' || c == ':'
  isBlank c := c == ' '

def isName (w : String) : Bool := w.toList.head? == some '#'

def isValue (w : String) : Bool := w.toList.head? == some ':'

/-- A document path, by its name placeholders. -/
abbrev Path := List String

inductive Operand where
  | path (p : Path)
  | value (placeholder : String)
deriving DecidableEq

inductive Cond where
  | equal (a b : Operand)
  | attributeExists (p : Path)
  | attributeNotExists (p : Path)
  | attributeType (p : Path) (type : Operand)
  | beginsWith (p : Path) (start : Operand)
  | and (a b : Cond)
  | or (a b : Cond)
deriving DecidableEq

/-- What a `SET` action assigns. -/
inductive SetValue where
  | operand (a : Operand)
  | plus (a b : Operand)
deriving DecidableEq

structure UpdateClauses where
  sets : List (Path × SetValue)
  removes : List Path
deriving DecidableEq

def parsePath : Parser Path
  | .word w :: .punct '.' :: ts =>
    if isName w then (parsePath ts).map (fun r => (w :: r.1, r.2)) else none
  | .word w :: ts => if isName w then some ([w], ts) else none
  | _ => none

def parseOperand : Parser Operand
  | .word w :: ts =>
    if isValue w then some (.value w, ts)
    else (parsePath (.word w :: ts)).map (fun r => (.path r.1, r.2))
  | _ => none

/-- The argument of a function of one path. -/
def parsePathArgument : Parser Path := fun ts => do
  let (_, ts) ← expect (.punct '(') ts
  let (p, ts) ← parsePath ts
  let (_, ts) ← expect (.punct ')') ts
  some (p, ts)

/-- The arguments of a function of a path and an operand. -/
def parsePathOperandArguments : Parser (Path × Operand) := fun ts => do
  let (_, ts) ← expect (.punct '(') ts
  let (p, ts) ← parsePath ts
  let (_, ts) ← expect (.punct ',') ts
  let (a, ts) ← parseOperand ts
  let (_, ts) ← expect (.punct ')') ts
  some ((p, a), ts)

def parseComparison : Parser Cond := fun ts => do
  let (a, ts) ← parseOperand ts
  let (_, ts) ← expect (.punct '=') ts
  let (b, ts) ← parseOperand ts
  some (.equal a b, ts)

/-- A function, a comparison, or a condition in parentheses. -/
def parseAtom (inner : Parser Cond) : Parser Cond
  | .punct '(' :: ts => do
    let (c, ts) ← inner ts
    let (_, ts) ← expect (.punct ')') ts
    some (c, ts)
  | .word "attribute_exists" :: ts =>
    (parsePathArgument ts).map (fun r => (.attributeExists r.1, r.2))
  | .word "attribute_not_exists" :: ts =>
    (parsePathArgument ts).map (fun r => (.attributeNotExists r.1, r.2))
  | .word "attribute_type" :: ts =>
    (parsePathOperandArguments ts).map (fun r => (.attributeType r.1.1 r.1.2, r.2))
  | .word "begins_with" :: ts =>
    (parsePathOperandArguments ts).map (fun r => (.beginsWith r.1.1 r.1.2, r.2))
  | ts => parseComparison ts

/-- A list of conditions under one connective. -/
def connect (op : Cond → Cond → Cond) : List Cond → Option Cond
  | [] => none
  | [c] => some c
  | c :: d :: cs => (connect op (d :: cs)).map (op c)

/-- Conditions joined by a keyword. -/
def parseConnected (keyword : String) (op : Cond → Cond → Cond) (item : Parser Cond) :
    Parser Cond := fun ts => do
  let (cs, rest) ← sepBy (.word keyword) item ts.length ts
  let c ← connect op cs
  some (c, rest)

/-- A condition, with parentheses at most `n` deep; `AND` binds tighter than `OR`. -/
def parseCond : ℕ → Parser Cond
  | 0 => fun _ => none
  | n + 1 => parseConnected "OR" .or (parseConnected "AND" .and (parseAtom (parseCond n)))

/-- A condition expression. -/
def parseCondition (text : String) : Option Cond :=
  match parseCond ((lex alphabet text).length + 2) (lex alphabet text) with
  | some (c, []) => some c
  | _ => none

def parseAssignment : Parser (Path × SetValue) := fun ts => do
  let (p, ts) ← parsePath ts
  let (_, ts) ← expect (.punct '=') ts
  let (a, ts) ← parseOperand ts
  match expect (.punct '+') ts with
  | none => some ((p, .operand a), ts)
  | some (_, ts) => do
    let (b, ts) ← parseOperand ts
    some ((p, .plus a b), ts)

/-- The items of a clause behind its keyword, or nothing when the clause is missing. -/
def parseClause {α : Type} (keyword : String) (item : Parser α) : Parser (List α) := fun ts =>
  match expect (.word keyword) ts with
  | none => some ([], ts)
  | some (_, ts) => sepBy (.punct ',') item ts.length ts

/-- An update expression: a `SET` clause, a `REMOVE` clause, or both in this order. -/
def parseUpdate (text : String) : Option UpdateClauses :=
  match parseClause "SET" parseAssignment (lex alphabet text) with
  | none => none
  | some (sets, ts) =>
    match parseClause "REMOVE" parsePath ts with
    | some (removes, []) => if sets = [] ∧ removes = [] then none else some ⟨sets, removes⟩
    | _ => none

/-- The substitutions sent with the expressions of a request. -/
structure Substitution where
  names : Option (FiniteMap String String)
  values : Option (FiniteMap String AttributeValue)

namespace Substitution

variable (σ : Substitution) (item : Attributes)

/-- A substitution that is sent must not be empty. -/
def valid : Bool :=
  σ.names.all (fun m => decide (m.keys ≠ ∅)) && σ.values.all (fun m => decide (m.keys ≠ ∅))

def name (placeholder : String) : Option String := σ.names.bind (fun m => m.get? placeholder)

def value (placeholder : String) : Option AttributeValue :=
  σ.values.bind (fun m => m.get? placeholder)

def resolve (p : Path) : Option (List String) := p.mapM σ.name

end Substitution

/-- What a path leads to; a path into a missing or non-map value leads to nothing. -/
def lookup (item : Attributes) : List String → Option AttributeValue
  | [] => none
  | [a] => item.get? a
  | a :: path =>
    match item.get? a with
    | some (.m entries) => lookup entries path
    | _ => none

/-- The value of an operand, if its path leads to one. -/
def Operand.eval (σ : Substitution) (item : Attributes) :
    Operand → Option (Option AttributeValue)
  | .path p => (σ.resolve p).map (lookup item)
  | .value v => (σ.value v).map some

def sameIfPresent : Option AttributeValue → Option AttributeValue → Bool
  | some a, some b => a.same b
  | _, _ => false

def hasType : Option AttributeValue → Option AttributeValue → Bool
  | some a, some (.s type) => a.typeName = type
  | _, _ => false

def hasStart : Option AttributeValue → Option AttributeValue → Bool
  | some (.s a), some (.s start) => startsWith a start
  | _, _ => false

/-- Whether a condition holds of an item; of a missing item nothing is present. -/
def Cond.holds (σ : Substitution) (item : Attributes) : Cond → Option Bool
  | .equal a b => do some (sameIfPresent (← a.eval σ item) (← b.eval σ item))
  | .attributeExists p => do some (lookup item (← σ.resolve p)).isSome
  | .attributeNotExists p => do some (lookup item (← σ.resolve p)).isNone
  | .attributeType p a => do some (hasType (lookup item (← σ.resolve p)) (← a.eval σ item))
  | .beginsWith p a => do some (hasStart (lookup item (← σ.resolve p)) (← a.eval σ item))
  | .and a b => do some ((← a.holds σ item) && (← b.holds σ item))
  | .or a b => do some ((← a.holds σ item) || (← b.holds σ item))

/-- An error response; a canceled transaction has a code for each of its items. -/
structure Error where
  code : String
  status : ℕ
  cancellationReasons : List String
deriving DecidableEq

def Error.validation : Error := ⟨"ValidationException", 400, []⟩

def Error.conditionalCheckFailed : Error := ⟨"ConditionalCheckFailedException", 400, []⟩

def Error.transactionCanceled (reasons : List String) : Error :=
  ⟨"TransactionCanceledException", 400, reasons⟩

/-- The verdict of a request's condition expression. -/
def evaluate (condition : Option String) (σ : Substitution) (item : Attributes) :
    Except Error Bool :=
  match condition with
  | none => .ok true
  | some text =>
    if σ.valid then
      match (parseCondition text).bind (Cond.holds σ item) with
      | some verdict => .ok verdict
      | none => .error .validation
    else .error .validation

/-- What a `SET` action assigns, on the item before the update. -/
def SetValue.eval (σ : Substitution) (item : Attributes) : SetValue → Option AttributeValue
  | .operand a => (a.eval σ item).join
  | .plus a b =>
    match (a.eval σ item).join, (b.eval σ item).join with
    | some (.n x), some (.n y) => (addNumbers x y).map .n
    | _, _ => none

/-- Sets the attribute at the end of a path, whose other parts must be maps. -/
def setPath (v : AttributeValue) : Attributes → List String → Option Attributes
  | _, [] => none
  | item, [a] => some (item.insert a v)
  | item, a :: path =>
    match item.get? a with
    | some (.m entries) => (setPath v entries path).map (fun m => item.insert a (.m m))
    | _ => none

/-- Removes the attribute at the end of a path, if it is there. -/
def removePath : Attributes → List String → Option Attributes
  | _, [] => none
  | item, [a] => some (item.erase a)
  | item, a :: path =>
    match item.get? a with
    | some (.m entries) => (removePath entries path).map (fun m => item.insert a (.m m))
    | _ => none

/-- Neither path leads through the other. -/
def Apart (p q : List String) : Prop := p.isPrefixOf q = false ∧ q.isPrefixOf p = false

instance : DecidableRel Apart := fun _ _ => inferInstanceAs (Decidable (_ ∧ _))

/-- Every assigned value is computed on the item before the update; no two actions may
concern overlapping paths. -/
def UpdateClauses.apply (σ : Substitution) (u : UpdateClauses) (item : Attributes) :
    Option Attributes := do
  let sets ← u.sets.mapM (fun s => do some (← σ.resolve s.1, ← s.2.eval σ item))
  let removes ← u.removes.mapM σ.resolve
  if (sets.map Prod.fst ++ removes).Pairwise Apart then
    let item ← sets.foldlM (fun item s => setPath s.2 item s.1) item
    removes.foldlM removePath item
  else none

/-- The attributes that hold the primary key. -/
def hashKey : String := "PK"

def rangeKey : String := "SK"

def PrimaryKey.attributes (key : PrimaryKey) : Attributes :=
  (FiniteMap.empty.insert hashKey (.s key.pk)).insert rangeKey (.s key.sk)

/-- The primary key in an item's attributes. -/
def primaryKey (item : Attributes) : Option PrimaryKey :=
  match item.get? hashKey, item.get? rangeKey with
  | some (.s pk), some (.s sk) => some ⟨pk, sk⟩
  | _, _ => none

/-- Key attributes are never the empty string. -/
def PrimaryKey.valid (key : PrimaryKey) : Bool := key.pk ≠ "" && key.sk ≠ ""

/-- One write of a transaction; a single-item request is the same write alone. -/
inductive WriteItem where
  | put (item : Attributes) (condition : Option String) (σ : Substitution)
  | update (key : PrimaryKey) (expression : String) (condition : Option String)
      (σ : Substitution)
  | delete (key : PrimaryKey) (condition : Option String) (σ : Substitution)
  | conditionCheck (key : PrimaryKey) (condition : String) (σ : Substitution)

/-- What a write does to the table once its condition has held. -/
inductive Effect where
  | put (key : PrimaryKey) (item : Attributes)
  | delete (key : PrimaryKey)
  | none

def Effect.apply (t : Table) : Effect → Table
  | .put key item => t.insert key item
  | .delete key => t.erase key
  | .none => t

variable (t : Table)

/-- The condition of a write, on the item it is about. -/
def require (key : PrimaryKey) (condition : Option String) (σ : Substitution) :
    Except Error Unit := do
  if ¬ key.valid then .error .validation
  else if ← evaluate condition σ ((t.get? key).getD .empty) then .ok ()
  else .error .conditionalCheckFailed

def WriteItem.key : WriteItem → Option PrimaryKey
  | .put item _ _ => primaryKey item
  | .update key _ _ _ => some key
  | .delete key _ _ => some key
  | .conditionCheck key _ _ => some key

def WriteItem.effect : WriteItem → Except Error Effect
  | .put item condition σ =>
    match primaryKey item with
    | none => .error .validation
    | some key => do
      require t key condition σ
      .ok (.put key item)
  | .update key expression condition σ =>
    match parseUpdate expression with
    | none => .error .validation
    | some u => do
      require t key condition σ
      match u.apply σ ((t.get? key).getD key.attributes) with
      | none => .error .validation
      | some item => .ok (.put key item)
  | .delete key condition σ => do
    require t key condition σ
    .ok (.delete key)
  | .conditionCheck key condition σ => do
    require t key (some condition) σ
    .ok .none

def getItem (key : PrimaryKey) : Except Error (Option Attributes) := .ok (t.get? key)

def putItem (item : Attributes) (condition : Option String) (σ : Substitution) :
    Except Error Unit × Table :=
  match (WriteItem.put item condition σ).effect t with
  | .error e => (.error e, t)
  | .ok effect => (.ok (), effect.apply t)

/-- An update that returns all attributes of the new item. -/
def updateItem (key : PrimaryKey) (expression : String) (condition : Option String)
    (σ : Substitution) : Except Error (Option Attributes) × Table :=
  match (WriteItem.update key expression condition σ).effect t with
  | .error e => (.error e, t)
  | .ok effect => (.ok ((effect.apply t).get? key), effect.apply t)

def invalid : Except Error Effect → Bool
  | .error e => e = .validation
  | .ok _ => false

def cancellationReason : Except Error Effect → String
  | .error _ => "ConditionalCheckFailed"
  | .ok _ => "None"

/-- All writes or none: up to a hundred, on different items, each judged on the table before
the transaction. -/
def transactWriteItems (writes : List WriteItem) : Except Error Unit × Table :=
  if writes.isEmpty ∨ 100 < writes.length ∨ ¬ (writes.map WriteItem.key).Nodup ∨
      writes.any (fun w => invalid (w.effect t)) then
    (.error .validation, t)
  else
    match writes.mapM (WriteItem.effect t) with
    | .error _ =>
      (.error (.transactionCanceled (writes.map (fun w => cancellationReason (w.effect t)))), t)
    | .ok effects => (.ok (), effects.foldl Effect.apply t)

end Cloud.Dynamo
