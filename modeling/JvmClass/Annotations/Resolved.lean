import JvmClass.Annotations
import JvmClass.Pool

/-!
# Resolved annotations

Annotations with every pool index replaced by what it stands for, and two ways to write a value
down: `text` as in source code, `describe` with the kind of every part.
-/

namespace JvmClass

mutual

inductive AnnotationValue where
  | boolean (value : Bool)
  | byte (value : Int8)
  /-- A code unit, which may be a surrogate. -/
  | char (unit : UInt16)
  | short (value : Int16)
  | int (value : Int32)
  | long (value : Int64)
  | float (bits : UInt32)
  | double (bits : UInt64)
  | string (text : String)
  | classInfo (descriptor : String)
  | enum (type constant : String)
  | nested (content : AnnotationView)
  | array (values : List AnnotationValue)

/-- An annotation by its type and its elements. -/
structure AnnotationView where
  type : String
  elements : List ElementView

structure ElementView where
  name : String
  value : AnnotationValue

end

instance : Inhabited AnnotationValue := ⟨.array []⟩

/-- The first value under a name. -/
def AnnotationView.find? (a : AnnotationView) (name : String) : Option AnnotationValue :=
  (a.elements.find? fun e => e.name == name).map (·.value)

/-! ## Resolution -/

namespace Pool

def integer (p : Pool) (index : UInt16) : Except Error Int32 := do
  match ← p.get index with
  | .integer i => return i
  | c => throw (.unexpectedConstant .integer c)

/-- The constant that an element value of the given tag letter stands for. -/
def elementConstant (p : Pool) (tag : UInt8) (index : UInt16) : Except Error AnnotationValue := do
  match Char.ofNat tag.toNat with
  | 'Z' => return .boolean ((← p.integer index) ≠ 0)
  | 'B' => return .byte (← p.integer index).toInt8
  | 'C' => return .char (← p.integer index).toUInt32.toUInt16
  | 'S' => return .short (← p.integer index).toInt16
  | 'I' => return .int (← p.integer index)
  | 'J' =>
    match ← p.get index with
    | .long i => return .long i
    | c => throw (.unexpectedConstant .long c)
  | 'F' =>
    match ← p.get index with
    | .float bits => return .float bits
    | c => throw (.unexpectedConstant .float c)
  | 'D' =>
    match ← p.get index with
    | .double bits => return .double bits
    | c => throw (.unexpectedConstant .double c)
  | 's' => return .string (← p.textLossy index)
  | _ => throw (.malformedAttribute "annotation" (.unknownElementTag tag none))

end Pool

mutual

def ElementValue.resolve (p : Pool) : ElementValue → Except Error AnnotationValue
  | .const tag index => p.elementConstant tag index
  | .enum type constant => do return .enum (← p.text type) (← p.text constant)
  | .classInfo index => do return .classInfo (← p.text index)
  | .nested content => do return .nested (← content.resolve p)
  | .array values => do return .array (← resolveValues p [] values)

/-- Resolves an annotation, its elements before its type. -/
def AnnotationInfo.resolve (p : Pool) : AnnotationInfo → Except Error AnnotationView
  | ⟨type, elements⟩ => do
    let elements ← resolveElements p [] elements
    return ⟨← p.text type, elements⟩

/-- Resolves values behind those resolved so far, which stand in reverse. -/
def resolveValues (p : Pool) (found : List AnnotationValue) :
    List ElementValue → Except Error (List AnnotationValue)
  | [] => .ok found.reverse
  | v :: rest => do
    let v ← v.resolve p
    resolveValues p (v :: found) rest

/-- Resolves elements behind those resolved so far, which stand in reverse. -/
def resolveElements (p : Pool) (found : List ElementView) :
    List Element → Except Error (List ElementView)
  | [] => .ok found.reverse
  | ⟨name, v⟩ :: rest => do
    let name ← p.text name
    let v ← v.resolve p
    resolveElements p (⟨name, v⟩ :: found) rest

end

/-- Annotations are resolved in order, and the first failure wins. -/
def AnnotationInfo.resolveAll (p : Pool) (annotations : List AnnotationInfo) :
    Except Error (List AnnotationView) :=
  annotations.mapM (resolve p)

/-! ## Texts -/

mutual

/-- A value as in source code; an annotation by its type only. -/
def AnnotationValue.text : AnnotationValue → String
  | .boolean b => if b then "true" else "false"
  | .byte i => toString i.toInt
  | .char u => Text.quotedUnit u
  | .short i => toString i.toInt
  | .int i => toString i.toInt
  | .long i => toString i.toInt ++ "L"
  | .float bits => Decimal.plain.single bits ++ "f"
  | .double bits => Decimal.plain.double bits
  | .string s => Text.quoted s
  | .classInfo descriptor => descriptor ++ ".class"
  | .enum type constant => type ++ "." ++ constant
  | .nested ⟨type, _⟩ => "@" ++ type
  | .array values => "\x7b" ++ String.intercalate ", " (valueTexts [] values) ++ "\x7d"

/-- The texts of values behind those so far, which stand in reverse. -/
def valueTexts (found : List String) : List AnnotationValue → List String
  | [] => found.reverse
  | v :: rest => valueTexts (v.text :: found) rest

end

mutual

/-- A value with the kind of every part. -/
def AnnotationValue.describe : AnnotationValue → String
  | .boolean b => Constant.wrapped "Boolean" (if b then "true" else "false")
  | .byte i => Constant.wrapped "Byte" (toString i.toInt)
  | .char u => Constant.wrapped "Char" (toString u.toNat)
  | .short i => Constant.wrapped "Short" (toString i.toInt)
  | .int i => Constant.wrapped "Int" (toString i.toInt)
  | .long i => Constant.wrapped "Long" (toString i.toInt)
  | .float bits => Constant.wrapped "Float" (Decimal.marked.single bits)
  | .double bits => Constant.wrapped "Double" (Decimal.marked.double bits)
  | .string s => Constant.wrapped "String" (Text.quoted s)
  | .classInfo descriptor => Constant.wrapped "Class" (Text.quoted descriptor)
  | .enum type constant =>
    Constant.record "Enum"
      [("type_descriptor", Text.quoted type), ("constant", Text.quoted constant)]
  | .nested content => Constant.wrapped "Annotation" content.describe
  | .array values => Constant.wrapped "Array" (Constant.bracketed (describeValues [] values))

def AnnotationView.describe : AnnotationView → String
  | ⟨type, elements⟩ =>
    Constant.record "ResolvedAnnotation"
      [("type_descriptor", Text.quoted type),
        ("elements", Constant.bracketed (describeElements [] elements))]

/-- Describes values behind the descriptions so far, which stand in reverse. -/
def describeValues (found : List String) : List AnnotationValue → List String
  | [] => found.reverse
  | v :: rest => describeValues (v.describe :: found) rest

/-- Describes elements behind the descriptions so far, which stand in reverse. -/
def describeElements (found : List String) : List ElementView → List String
  | [] => found.reverse
  | ⟨name, v⟩ :: rest =>
    describeElements (("(" ++ Text.quoted name ++ ", " ++ v.describe ++ ")") :: found) rest

end

end JvmClass
