import MtcCa.Cloud.ReplicatedKv
import MtcCa.Cloud.Dynamo

/-! The DynamoDB backend of the key-value abstraction
(`crates/cloud-aws/src/ddb_replicated_kv.rs`, `crates/cloud-aws/src/error.rs`). A key becomes a
partition key and a sort key, a value one reserved attribute, and conditions and updates become
expression text with placeholders. -/
namespace Cloud.DynamoDbReplicatedKv

open Text Dynamo

def pkAttr : String := "PK"

def skAttr : String := "SK"

/-- The attribute that holds the whole value. -/
def valueAttr : String := "value"

/-- The attribute that an update without actions touches. -/
def noopMarkerAttr : String := "_touched"

/-- The text before and after the first occurrence of a character. -/
def splitOnce (s : String) (c : Char) : Option (String × String) :=
  match s.toList.dropWhile (· ≠ c) with
  | [] => none
  | _ :: rest => some (String.ofList (s.toList.takeWhile (· ≠ c)), String.ofList rest)

def unsplittable (rendered : String) : CloudError :=
  .transport false (debug rendered ++ ": DynamoDbReplicatedKv requires keys shaped " ++
    "`<partition>/<sort...>` with both segments non-empty (spec " ++
    "§8.2's `log#\x7blogId\x7d/\x7bitem-kind\x7d` convention) -- this key " ++
    "has no `/`, or splits to an empty partition or sort segment")

/-- The partition and sort key of a key, cut at its first slash. -/
def splitKey (key : Key) : Except CloudError PrimaryKey :=
  match splitOnce key.str '/' with
  | some (pk, sk) => if pk ≠ "" ∧ sk ≠ "" then .ok ⟨pk, sk⟩ else .error (unsplittable key.str)
  | none => .error (unsplittable key.str)

def renderKey (key : PrimaryKey) : Key := ⟨key.pk ++ "/" ++ key.sk⟩

def encodeValue : Value → AttributeValue
  | .bool b => .bool b
  | .u64 n => .n (Nat.repr n.toNat)
  | .string s => .s s
  | .bytes b => .b b
  | .map ⟨ks, f⟩ => .m ⟨ks, fun k => encodeValue (f k)⟩

def malformed (reason : String) : CloudError :=
  .transport false ("malformed stored item: " ++ reason)

def parseU64 (s : String) : Option UInt64 :=
  match numeral s with
  | some n => if n < 2 ^ 64 then some (UInt64.ofNat n) else none
  | none => none

/-- The entries of a decoded map, up to the first that does not decode. -/
def collectEntries (entries : FiniteMap String (Except CloudError Value)) :
    Except CloudError (FiniteMap String Value) :=
  entries.toList.foldlM (fun out p => p.2.map (out.insert p.1)) .empty

def decodeValue : AttributeValue → Except CloudError Value
  | .bool b => .ok (.bool b)
  | .n s =>
    match parseU64 s with
    | some n => .ok (.u64 n)
    | none => .error (malformed ("stored N " ++ debug s ++ " is not a valid u64"))
  | .s s => .ok (.string s)
  | .b bytes => .ok (.bytes bytes)
  | .m ⟨ks, f⟩ => (collectEntries ⟨ks, fun k => decodeValue (f k)⟩).map .map
  | .unsupported other => .error (malformed ("unsupported DynamoDB attribute type: " ++ other))

/-- The `:?` rendering of a value, a map in key order. -/
def debugAttribute : AttributeValue → String
  | .bool b => "Bool(" ++ toString b ++ ")"
  | .n s => "N(" ++ debug s ++ ")"
  | .s s => "S(" ++ debug s ++ ")"
  | .b bytes => "B(Blob \x7b inner: [" ++ join ", " (bytes.map (fun x => toString x)) ++ "] \x7d)"
  | .m ⟨ks, f⟩ =>
    let rendered : FiniteMap String String := ⟨ks, fun k => debugAttribute (f k)⟩
    "M(\x7b" ++ join ", " (rendered.toList.map (fun p => debug p.1 ++ ": " ++ p.2)) ++ "\x7d)"
  | .unsupported other => other

def requiredStringAttr (item : Attributes) (attr : String) : Except CloudError String :=
  match item.get? attr with
  | some (.s s) => .ok s
  | some other => .error (malformed ("attribute " ++ debug attr ++
      " is not a String (got " ++ debugAttribute other ++ ")"))
  | none => .error (malformed ("attribute " ++ debug attr ++ " is missing"))

/-- The item at a key that is already known. -/
def decodeItemAttrs (key : Key) (attrs : Attributes) : Except CloudError Item :=
  match attrs.get? valueAttr with
  | none => .error (malformed
      (key.str ++ ": item is missing the reserved " ++ debug valueAttr ++ " attribute"))
  | some raw => do
    let value ← decodeValue raw
    .ok ⟨key, value⟩

/-- An item with its key read back from its own attributes. -/
def decodeScannedItem (attrs : Attributes) : Except CloudError Item := do
  let pk ← requiredStringAttr attrs pkAttr
  let sk ← requiredStringAttr attrs skAttr
  decodeItemAttrs (renderKey ⟨pk, sk⟩) attrs

/-- The placeholders of one request: those for names and values, the next number, and the one
that stands for the value attribute. -/
structure ExprBuilder where
  names : FiniteMap String String
  values : FiniteMap String AttributeValue
  next : ℕ
  valueAlias : Option String

namespace ExprBuilder

def default : ExprBuilder := ⟨.empty, .empty, 0, none⟩

/-- A new placeholder for a name. -/
def aliasName (name : String) : StateM ExprBuilder String := fun b =>
  let placeholder := "#n" ++ Nat.repr b.next
  (placeholder, { b with next := b.next + 1, names := b.names.insert placeholder name })

/-- A new placeholder for a value. -/
def aliasValue (value : AttributeValue) : StateM ExprBuilder String := fun b =>
  let placeholder := ":v" ++ Nat.repr b.next
  (placeholder, { b with next := b.next + 1, values := b.values.insert placeholder value })

/-- The placeholder for the value attribute, made once. -/
def valueAttrAlias : StateM ExprBuilder String := fun b =>
  match b.valueAlias with
  | some placeholder => (placeholder, b)
  | none =>
    let (placeholder, b) := aliasName valueAttr b
    (placeholder, { b with valueAlias := some placeholder })

/-- The path to an attribute inside the value attribute, or to that one itself. -/
def valuePath (attr : String) : StateM ExprBuilder String := do
  let v ← valueAttrAlias
  if attr.isEmpty then return v
  else
    let a ← aliasName attr
    return v ++ "." ++ a

/-- The placeholders as a request carries them: a map without entries is left out. -/
def finish (b : ExprBuilder) : Substitution where
  names := if b.names.keys = ∅ then none else some b.names
  values := if b.values.keys = ∅ then none else some b.values

end ExprBuilder

open ExprBuilder

def conditionClause : Condition → StateM ExprBuilder String
  | .notExists => do
    let pk ← aliasName pkAttr
    return "attribute_not_exists(" ++ pk ++ ")"
  | .exists => do
    let pk ← aliasName pkAttr
    return "attribute_exists(" ++ pk ++ ")"
  | .attributeEquals attr expected => do
    let path ← valuePath attr
    let val ← aliasValue (encodeValue expected)
    return path ++ " = " ++ val

/-- All conditions, or nothing when there is none. -/
def conditionsClause (conditions : List Condition) : StateM ExprBuilder (Option String) := do
  if conditions.isEmpty then return none
  else
    let clauses ← conditions.mapM conditionClause
    return some (join " AND " clauses)

/-- The clauses collected from the actions of an update. -/
structure Clauses where
  sets : List String
  removes : List String
  guards : List String

def updateClause (acc : Clauses) : UpdateAction → StateM ExprBuilder Clauses
  | .set attr value => do
    let path ← valuePath attr
    let val ← aliasValue (encodeValue value)
    return { acc with sets := acc.sets ++ [path ++ " = " ++ val] }
  | .increment attr amount => do
    let path ← valuePath attr
    let delta ← aliasValue (.n (Nat.repr amount.toNat))
    let numType ← aliasValue (.s "N")
    return { acc with
      sets := acc.sets ++ [path ++ " = " ++ path ++ " + " ++ delta]
      guards := acc.guards ++ ["(attribute_exists(" ++ path ++ ") AND attribute_type(" ++ path ++
        ", " ++ numType ++ "))"] }
  | .remove attr => do
    let path ← valuePath attr
    return { acc with removes := acc.removes ++ [path] }

/-- The text of an update expression. -/
def updateText (sets removes : List String) : String :=
  let text := if sets.isEmpty then "" else "SET " ++ join ", " sets
  if removes.isEmpty then text
  else (if text.isEmpty then text else text ++ " ") ++ "REMOVE " ++ join ", " removes

/-- The update expression, which is never empty, and the guards of its increments. -/
def updateClauses (expr : UpdateExpression) : StateM ExprBuilder (String × List String) := do
  let acc ← expr.actions.foldlM updateClause ⟨[], [], []⟩
  if acc.sets.isEmpty ∧ acc.removes.isEmpty then
    let marker ← aliasName noopMarkerAttr
    let val ← aliasValue (.bool true)
    return (updateText [marker ++ " = " ++ val] acc.removes, acc.guards)
  else return (updateText acc.sets acc.removes, acc.guards)

/-- The condition of an update: the item exists, the caller's conditions and the guards. -/
def updateConditionExpression (conditions : List Condition) (guards : List String) :
    StateM ExprBuilder String := do
  let pk ← aliasName pkAttr
  let caller ← conditionsClause conditions
  return join " AND " (["attribute_exists(" ++ pk ++ ")"] ++ caller.toList ++ guards)

def retryableCodes : List String :=
  ["ProvisionedThroughputExceededException", "ThrottlingException", "RequestLimitExceeded",
    "InternalServerError", "LimitExceededException", "TransactionInProgressException"]

/-- The classification of an error response that no condition explains. -/
def ddbGenericError (e : Dynamo.Error) : CloudError :=
  .transport (e.code ∈ retryableCodes ∨ e.status = 429 ∨ 500 ≤ e.status)
    ("DynamoDB error " ++ e.code ++ " (HTTP " ++ toString e.status ++ ")")

def isConditionFailed (e : Dynamo.Error) : Bool := e.code = "ConditionalCheckFailedException"

def mapPutItemError (key : String) (e : Dynamo.Error) : CloudError :=
  if isConditionFailed e then .conditionFailed (key ++ ": condition not satisfied")
  else ddbGenericError e

def anyConditionCheckFailed (reasons : List String) : Bool :=
  reasons.any (· = "ConditionalCheckFailed")

def mapTransactWriteItemsError (e : Dynamo.Error) : CloudError :=
  if e.code = "TransactionCanceledException" ∧ anyConditionCheckFailed e.cancellationReasons then
    .conditionFailed "transact: at least one operation's condition did not hold"
  else ddbGenericError e

/-- The attributes of an item that is put. -/
def putAttrs (key : PrimaryKey) (value : Value) : Attributes :=
  FiniteMap.ofList [(pkAttr, .s key.pk), (skAttr, .s key.sk), (valueAttr, encodeValue value)]

/-- The conditions of a put, delete or check, with their placeholders. -/
def conditionRequest (conditions : List Condition) : Option String × Substitution :=
  match conditionsClause conditions .default with
  | (none, _) => (none, ⟨none, none⟩)
  | (some text, b) => (some text, b.finish)

/-- The update and condition expressions of an update, with their placeholders. -/
def updateRequest (expr : UpdateExpression) (conditions : List Condition) :
    String × String × Substitution :=
  let request : StateM ExprBuilder (String × String) := do
    let (text, guards) ← updateClauses expr
    let condition ← updateConditionExpression conditions guards
    return (text, condition)
  let ((text, condition), b) := request .default
  (text, condition, b.finish)

variable (t : Table)

def get (key : Key) : Except CloudError Item := do
  let k ← splitKey key
  match getItem t k with
  | .error e => .error (ddbGenericError e)
  | .ok none => .error (.notFound key.str)
  | .ok (some attrs) => decodeItemAttrs key attrs

def put (key : Key) (value : Value) (conditions : List Condition) :
    Except CloudError Unit × Table :=
  match splitKey key with
  | .error e => (.error e, t)
  | .ok k =>
    let (condition, σ) := conditionRequest conditions
    match putItem t (putAttrs k value) condition σ with
    | (.ok (), t) => (.ok (), t)
    | (.error e, t) => (.error (mapPutItemError key.str e), t)

/-- The error of an update whose condition failed, found by reading the item again. -/
def classifyFailedUpdate (key : Key) : CloudError :=
  match get t key with
  | .error (.notFound k) => .notFound k
  | .ok _ =>
    .conditionFailed (key.str ++ ": condition or increment precondition not satisfied")
  | .error other => other

def atomicUpdate (key : Key) (expr : UpdateExpression) (conditions : List Condition) :
    Except CloudError Item × Table :=
  match splitKey key with
  | .error e => (.error e, t)
  | .ok k =>
    let (text, condition, σ) := updateRequest expr conditions
    match updateItem t k text (some condition) σ with
    | (.ok (some attrs), t) => (decodeItemAttrs key attrs, t)
    | (.ok none, t) => (.error (malformed
        (key.str ++ ": UpdateItem ReturnValues=ALL_NEW returned no attributes")), t)
    | (.error e, t) =>
      if isConditionFailed e then (.error (classifyFailedUpdate t key), t)
      else (.error (ddbGenericError e), t)

/-- The condition of a check, which must have one: without conditions, one that always
holds. -/
def checkRequest (conditions : List Condition) : String × Substitution :=
  match conditionsClause conditions .default with
  | (some text, b) => (text, b.finish)
  | (none, b) =>
    let (pk, b) := aliasName pkAttr b
    ("attribute_exists(" ++ pk ++ ") OR attribute_not_exists(" ++ pk ++ ")", b.finish)

def buildTransactItem (op : Operation) : Except CloudError WriteItem := do
  match op with
  | .put key value conditions =>
    let k ← splitKey key
    let (condition, σ) := conditionRequest conditions
    .ok (.put (putAttrs k value) condition σ)
  | .update key expr conditions =>
    let k ← splitKey key
    let (text, condition, σ) := updateRequest expr conditions
    .ok (.update k text (some condition) σ)
  | .delete key conditions =>
    let k ← splitKey key
    let (condition, σ) := conditionRequest conditions
    .ok (.delete k condition σ)
  | .conditionCheck key conditions =>
    let k ← splitKey key
    let (condition, σ) := checkRequest conditions
    .ok (.conditionCheck k condition σ)

def transact (ops : List Operation) : Except CloudError Unit × Table :=
  match ops.mapM buildTransactItem with
  | .error e => (.error e, t)
  | .ok writes =>
    match transactWriteItems t writes with
    | (.ok (), t) => (.ok (), t)
    | (.error e, t) => (.error (mapTransactWriteItemsError e), t)

end Cloud.DynamoDbReplicatedKv
