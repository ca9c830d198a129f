import JvmClass.Reader

/-!
# Annotations

Annotations as they are stored, by pool indices. An element value is a constant, or a list of
values or an annotation, which hold values again, to a limited depth.
-/

namespace JvmClass

mutual

inductive ElementValue where
  /-- A constant of the kind that the tag letter tells. -/
  | const (tag : UInt8) (index : UInt16)
  | enum (type constant : UInt16)
  | classInfo (index : UInt16)
  | nested (content : AnnotationInfo)
  | array (values : List ElementValue)

structure AnnotationInfo where
  type : UInt16
  elements : List Element

structure Element where
  name : UInt16
  value : ElementValue

end

instance : Inhabited ElementValue := ⟨.array []⟩

namespace ElementValue

def enumTag : UInt8 := 0x65

def classTag : UInt8 := 0x63

def nestedTag : UInt8 := 0x40

def arrayTag : UInt8 := 0x5B

/-- The letters `B C D F I J S Z s`. -/
def isConstTag (tag : UInt8) : Bool :=
  [0x42, 0x43, 0x44, 0x46, 0x49, 0x4A, 0x53, 0x5A, 0x73].contains tag.toNat

end ElementValue

/-! ## Binary form -/

mutual

def ElementValue.encode : ElementValue → Except Error Bytes
  | .const tag index => .ok (tag :: Bytes.ofU16 index)
  | .enum type constant => .ok (ElementValue.enumTag :: (Bytes.ofU16 type ++ Bytes.ofU16 constant))
  | .classInfo index => .ok (ElementValue.classTag :: Bytes.ofU16 index)
  | .nested content => do return ElementValue.nestedTag :: (← content.encode)
  | .array values => do
    let count ← Table.elementValues.count values.length
    return ElementValue.arrayTag :: (count ++ (← encodeValues [] values))

def AnnotationInfo.encode : AnnotationInfo → Except Error Bytes
  | ⟨type, elements⟩ => do
    let count ← Table.elementValuePairs.count elements.length
    return Bytes.ofU16 type ++ count ++ (← encodeElements [] elements)

/-- Encodes values behind pieces that stand in reverse. -/
def encodeValues (pieces : List Bytes) : List ElementValue → Except Error Bytes
  | [] => .ok pieces.reverse.flatten
  | value :: rest => do
    let piece ← value.encode
    encodeValues (piece :: pieces) rest

/-- Encodes elements behind pieces that stand in reverse. -/
def encodeElements (pieces : List Bytes) : List Element → Except Error Bytes
  | [] => .ok pieces.reverse.flatten
  | ⟨name, value⟩ :: rest => do
    let piece ← value.encode
    encodeElements ((Bytes.ofU16 name ++ piece) :: pieces) rest

end

def AnnotationInfo.encodeTable (annotations : List AnnotationInfo) : Except Error Bytes := do
  return (← Table.annotations.count annotations.length) ++ (← concatM encode annotations)

open Reader in
/-- Reads an annotation, given how its values are read. -/
def AnnotationInfo.readWith (value : Reader ElementValue) : Reader AnnotationInfo := do
  let type ← u16
  let count ← u16
  let elements ← times count.toNat do
    let name ← u16
    return ⟨name, ← value⟩
  return ⟨type, elements⟩

open Reader in
/-- Reads a value in which annotations and lists nest at most `depth` deep. -/
def ElementValue.read (depth : Nat) : Reader ElementValue := do
  let start ← offset
  let tag ← u8
  if isConstTag tag then return .const tag (← u16)
  else if tag = enumTag then return .enum (← u16) (← u16)
  else if tag = classTag then return .classInfo (← u16)
  else if tag = nestedTag ∨ tag = arrayTag then
    match depth with
    | 0 => throw (.malformedAttribute "annotation" (.elementsTooDeep start))
    | depth + 1 =>
      if tag = nestedTag then return .nested (← AnnotationInfo.readWith (read depth))
      else
        let count ← u16
        return .array (← times count.toNat (read depth))
  else throw (.malformedAttribute "annotation" (.unknownElementTag tag (some start)))

def AnnotationInfo.read : Reader AnnotationInfo :=
  readWith (ElementValue.read maxElementNesting)

def AnnotationInfo.readTable : Reader (List AnnotationInfo) :=
  Reader.table 4 read

end JvmClass
