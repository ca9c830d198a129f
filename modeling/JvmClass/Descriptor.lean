import JvmClass.Error

/-!
# Descriptors

Types of fields and methods, as they are spelled in a class file: `[Ljava/lang/String;` or
`(IJ)V`. A class name is any text without a semicolon, and not empty.
-/

namespace JvmClass

inductive FieldType where
  | byte | char | double | float | int | long | short | boolean
  | object (name : String)
  | array (component : FieldType)
  deriving DecidableEq

namespace FieldType

/-- Slots taken by a value, on the operand stack and among the local variables. -/
def slots : FieldType → UInt16
  | long | double => 2
  | _ => 1

def text : FieldType → String
  | byte => "B"
  | char => "C"
  | double => "D"
  | float => "F"
  | int => "I"
  | long => "J"
  | short => "S"
  | boolean => "Z"
  | object name => "L" ++ name ++ ";"
  | array component => "[" ++ component.text

/-- The spelling in source code, such as `java.lang.String[]`. -/
def displayName : FieldType → String
  | byte => "byte"
  | char => "char"
  | double => "double"
  | float => "float"
  | int => "int"
  | long => "long"
  | short => "short"
  | boolean => "boolean"
  | object name => String.ofList (name.toList.map fun c => if c = '/' then '.' else c)
  | array component => component.displayName ++ "[]"

def base? : Char → Option FieldType
  | 'B' => some byte
  | 'C' => some char
  | 'D' => some double
  | 'F' => some float
  | 'I' => some int
  | 'J' => some long
  | 'S' => some short
  | 'Z' => some boolean
  | _ => none

/-- Reads one type from the front of a text and returns the rest. -/
def scan : List Char → Option (FieldType × List Char)
  | [] => none
  | c :: rest =>
    if c = '[' then
      match scan rest with
      | some (component, rest) => some (array component, rest)
      | none => none
    else if c = 'L' then
      match rest.span (· ≠ ';') with
      | (name, _ :: rest) => if name.isEmpty then none else some (object (String.ofList name), rest)
      | (_, []) => none
    else (base? c).map (·, rest)

/-- Reads types for as long as there is one, at most `limit` of them, behind those read so far. -/
def scanMany : (limit : Nat) → List FieldType → List Char → List FieldType × List Char
  | 0, types, cs => (types.reverse, cs)
  | limit + 1, types, cs =>
    match scan cs with
    | some (t, rest) => scanMany limit (t :: types) rest
    | none => (types.reverse, cs)

def parse (s : String) : Except Error FieldType :=
  match scan s.toList with
  | some (t, []) => .ok t
  | _ => .error (.invalidDescriptor s)

end FieldType

/-- The parameters and the result of a method; no result is `void`. -/
structure MethodType where
  parameters : List FieldType
  result : Option FieldType
  deriving DecidableEq

namespace MethodType

/-- Slots taken by the parameters, counted in two bytes. The count wraps at 65536 slots, where
checked arithmetic has no answer. -/
def parameterSlots (m : MethodType) : UInt16 :=
  m.parameters.foldl (fun slots t => slots + t.slots) 0

def resultSlots (m : MethodType) : UInt16 := (m.result.map FieldType.slots).getD 0

def text (m : MethodType) : String :=
  "(" ++ String.join (m.parameters.map FieldType.text) ++ ")" ++
    match m.result with
    | some t => t.text
    | none => "V"

/-- Reads a result type from a text that holds nothing else. -/
def scanResult? (cs : List Char) : Option (Option FieldType) :=
  match FieldType.scan cs, cs with
  | some (t, []), _ => some (some t)
  | none, ['V'] => some none
  | _, _ => none

def scan? : List Char → Option MethodType
  | '(' :: cs =>
    match FieldType.scanMany cs.length [] cs with
    | (parameters, ')' :: rest) => (scanResult? rest).map fun result => ⟨parameters, result⟩
    | _ => none
  | _ => none

def parse (s : String) : Except Error MethodType :=
  match scan? s.toList with
  | some m => .ok m
  | none => .error (.invalidDescriptor s)

end MethodType

end JvmClass
