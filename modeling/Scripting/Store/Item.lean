import Scripting.Fault
import Scripting.Store.Basic

/-!
Reading and writing the items of arrays and the fields of records.
-/

set_option autoImplicit false

namespace Scripting.Store

def index (length : Nat) (i : Int) : Except Fault Nat :=
  if i < 0 then .error (.negativeIndex i)
  else if i < length then .ok i.toNat
  else .error (.indexOutOfRange i length)

def arrayMember (s : Store) (a : ArrayId) (name : String) : Except Fault Value :=
  match name with
  | "length" => .ok (.number (s.items a).size)
  | "push" => .ok (.native ⟨"push", .push, some a⟩)
  | _ => .error (.noArrayMember name)

def getItem (s : Store) (base key : Value) : Except Fault Value :=
  match base, key with
  | .array a, .number i => do
    let k ← index (s.items a).size i
    return (s.items a).getD k .nothing
  | .array a, .string name => s.arrayMember a name
  | .record r, .string name =>
    match (s.fields r).get? name with
    | some v => .ok v
    | none => .error (.noSuchProperty name)
  | _, _ => .error (.invalidAccess base.typeName key.typeName)

inductive Slot where
  | item (a : ArrayId) (index : Nat)
  | field (r : RecordId) (name : String)
deriving DecidableEq, Repr

/-- The place that a key names: an item that an array has, or any field of a record. -/
def slot (s : Store) (base key : Value) : Except Fault Slot :=
  match base, key with
  | .array a, .number i => return .item a (← index (s.items a).size i)
  | .record r, .string name => .ok (.field r name)
  | _, _ => .error (.invalidAccess base.typeName key.typeName)

def fill (s : Store) (v : Value) : Slot → Store
  | .item a k => s.modifyArray a (·.setIfInBounds k v)
  | .field r name => s.modifyRecord r (·.put name v)

def setItem (s : Store) (base key v : Value) : Except Fault Store :=
  (s.slot base key).map (s.fill v)

end Scripting.Store
