/-
  ShortCircuit.Value

  Values that settings and graph attributes can have: scalars, lists, and
  tables.  The keys of a table are scalars and each stands once; an entry that
  is written again keeps its place and changes its value.
-/

import ShortCircuit.Decimal.Binary64
import ShortCircuit.Text.CodePoint

namespace ShortCircuit

/-- A value without parts. -/
inductive Scalar where
  | null
  | bool (value : Bool)
  | int (value : Int)
  | float (value : Binary64)
  | text (value : Text)
  deriving DecidableEq

namespace Scalar

/-- The integer that a scalar equals, if it is a number at all; true and false count as one
    and zero. -/
def toInt? : Scalar → Option Int
  | bool b => some (if b then 1 else 0)
  | int n => some n
  | float x => x.toInt?
  | _ => none

/-- What a scalar is called in messages about its type. -/
def typeName : Scalar → String
  | null => "NoneType"
  | bool _ => "bool"
  | int _ => "int"
  | float _ => "float"
  | text _ => "str"

/-- Whether two scalars are the same key: numbers are compared by value. -/
def sameKey (a b : Scalar) : Bool :=
  a == b ||
    match a.toInt?, b.toInt? with
    | some m, some n => m == n
    | _, _ => false

end Scalar

/-! ## Tables -/

/-- Entries in the order in which their keys came first. -/
abbrev Table (α : Type) : Type := List (Scalar × α)

namespace Table

variable {α : Type}

/-- Write an entry: in its place if there is one of this key, else at the end. -/
def put (key : Scalar) (value : α) : Table α → Table α
  | [] => [(key, value)]
  | (k, v) :: rest => if k.sameKey key then (k, value) :: rest else (k, v) :: put key value rest

/-- Write entries one after another. -/
def putAll (entries : List (Scalar × α)) (table : Table α) : Table α :=
  entries.foldl (fun table (key, value) => table.put key value) table

/-- The table of a list of entries, the last of those with equal keys counting. -/
def ofList (entries : List (Scalar × α)) : Table α := putAll entries []

def get? (table : Table α) (key : Scalar) : Option α :=
  (table.find? (·.1.sameKey key)).map (·.2)

/-- What is written can be read. -/
theorem get?_put_self (table : Table α) (key : Scalar) (value : α) :
    (table.put key value).get? key = some value := by
  have own : key.sameKey key = true := by simp [Scalar.sameKey]
  induction table with
  | nil => simp [put, get?, own]
  | cons entry rest ih =>
    obtain ⟨k, v⟩ := entry
    unfold put
    split
    · rename_i h
      simp [get?, h]
    · rename_i h
      simpa [get?, h] using ih

end Table

/-- A value. -/
inductive Value where
  | scalar (value : Scalar)
  | list (items : List Value)
  | table (entries : List (Scalar × Value))

namespace Value

def null : Value := scalar .null

def isNull : Value → Bool
  | scalar .null => true
  | _ => false

/-- What a value is called in messages about its type. -/
def typeName : Value → String
  | scalar s => s.typeName
  | list _ => "list"
  | table _ => "dict"

end Value

end ShortCircuit
