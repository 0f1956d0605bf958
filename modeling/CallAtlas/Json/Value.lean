import CallAtlas.Table

/-! # JSON values

Integers and floats are kept apart, so that counts are written back without a point. Integers have
64 bits. The members of an object are a table: sorted by key, each key once. Values of different
kinds are never equal, so `1` and `1.0` differ.
-/
namespace CallAtlas.Json

inductive Value where
  | null
  | bool (b : Bool)
  | integer (i : Int64)
  | float (f : Float)
  | string (s : Bytes)
  | array (items : List Value)
  | object (members : List (Bytes × Value))

namespace Value

instance : Inhabited Value := ⟨.null⟩

/-- The name of a value's kind. -/
def kindName : Value → Bytes
  | .null => text "null"
  | .bool _ => text "bool"
  | .integer _ => text "integer"
  | .float _ => text "float"
  | .string _ => text "string"
  | .array _ => text "array"
  | .object _ => text "object"

def isNumber : Value → Bool
  | .integer _ | .float _ => true
  | _ => false

/-- The number of entries of an array or object, and 0 for any other value. -/
def size : Value → Nat
  | .array items => items.length
  | .object members => members.length
  | _ => 0

def string? : Value → Option Bytes
  | .string s => some s
  | _ => none

def integer? : Value → Option Int64
  | .integer i => some i
  | _ => none

def array? : Value → Option (List Value)
  | .array items => some items
  | _ => none

def object? : Value → Option (Table Value)
  | .object members => some members
  | _ => none

/-- The member of an object; `none` if it is absent or the value is no object. -/
def get? (key : Bytes) : Value → Option Value
  | .object members => Table.find? key members
  | _ => none

/-- An object with the given members; a later member replaces an earlier one of the same key. -/
def ofMembers (members : List (Bytes × Value)) : Value :=
  .object (members.foldl (fun t m => Table.insert m.1 m.2 t) [])

def ofNat (n : Nat) : Value := .integer (Int64.ofNat n)

mutual

/-- Equality of values. Floats compare as numbers, and two objects are equal when they have as many
members and each member of the one equals the member of that key of the other. -/
def same : Value → Value → Bool
  | .null, .null => true
  | .bool a, .bool b => a == b
  | .integer a, .integer b => a == b
  | .float a, .float b => a == b
  | .string a, .string b => a == b
  | .array as, .array bs => sameItems as bs
  | .object as, .object bs => as.length == bs.length && sameMembers as bs
  | _, _ => false

def sameItems : List Value → List Value → Bool
  | [], [] => true
  | a :: as, b :: bs => same a b && sameItems as bs
  | _, _ => false

def sameMembers : Table Value → Table Value → Bool
  | [], _ => true
  | (key, a) :: as, bs => (Table.find? key bs).any (same a) && sameMembers as bs

end

instance : BEq Value := ⟨same⟩

end Value
end CallAtlas.Json
