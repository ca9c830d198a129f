import JvmClass.Decimal.Printed
import JvmClass.Text.ModifiedUtf8

/-!
# Constants

The entries of a constant pool. Entries refer to each other by index; floating-point constants
are kept by their bits. `Role` is what a reference asks of the entry it points at.
-/

namespace JvmClass

/-- One slot of a constant pool. -/
inductive Constant where
  | utf8 (text : String)
  /-- Text with unpaired surrogates, by its code units. -/
  | utf8Unpaired (units : List UInt16)
  | integer (value : Int32)
  | float (bits : UInt32)
  | long (value : Int64)
  | double (bits : UInt64)
  | classRef (name : UInt16)
  | stringRef (text : UInt16)
  | fieldRef (owner nameAndType : UInt16)
  | methodRef (owner nameAndType : UInt16)
  | interfaceMethodRef (owner nameAndType : UInt16)
  | nameAndType (name descriptor : UInt16)
  | methodHandle (kind : UInt8) (reference : UInt16)
  | methodType (descriptor : UInt16)
  | dynamic (bootstrap nameAndType : UInt16)
  | invokeDynamic (bootstrap nameAndType : UInt16)
  | moduleRef (name : UInt16)
  | packageRef (name : UInt16)
  /-- The second slot of a long or double. -/
  | unusable
  deriving DecidableEq, Inhabited

namespace Constant

/-- The name of an entry's kind. Both text forms are of one kind. -/
def kindName : Constant → String
  | utf8 _ | utf8Unpaired _ => "Utf8"
  | integer _ => "Integer"
  | float _ => "Float"
  | long _ => "Long"
  | double _ => "Double"
  | classRef _ => "Class"
  | stringRef _ => "String"
  | fieldRef .. => "FieldRef"
  | methodRef .. => "MethodRef"
  | interfaceMethodRef .. => "InterfaceMethodRef"
  | nameAndType .. => "NameAndType"
  | methodHandle .. => "MethodHandle"
  | methodType _ => "MethodType"
  | dynamic .. => "Dynamic"
  | invokeDynamic .. => "InvokeDynamic"
  | moduleRef _ => "Module"
  | packageRef _ => "Package"
  | unusable => "Unusable"

/-- Pool slots an entry takes. -/
def slots : Constant → Nat
  | long _ | double _ => 2
  | _ => 1

def isUnusable : Constant → Bool
  | unusable => true
  | _ => false

def isDynamic : Constant → Bool
  | dynamic .. => true
  | _ => false

/-- Whether a one-slot load instruction may push the entry. -/
def isLoadable : Constant → Bool
  | integer _ | float _ | stringRef _ | classRef _ | methodType _ | methodHandle .. | dynamic .. =>
    true
  | _ => false

/-- Text from its stored bytes. Standard UTF-8 is taken as it is; anything else has to be
modified UTF-8. -/
def ofTextBytes? (bytes : Bytes) : Option Constant :=
  match String.fromUTF8? bytes.toByteArray with
  | some s => some (utf8 s)
  | none => do
    let us ← Text.decodeUnits bytes
    match Text.ofUnits? us with
    | some s => some (utf8 s)
    | none => some (utf8Unpaired us)

/-! ## Descriptions -/

/-- A labelled record: the label, then each field by name. -/
def record (label : String) (fields : List (String × String)) : String :=
  label ++ " \x7b " ++
    String.intercalate ", " (fields.map fun (name, value) => name ++ ": " ++ value) ++ " \x7d"

def wrapped (label content : String) : String :=
  label ++ "(" ++ content ++ ")"

def bracketed (items : List String) : String :=
  "[" ++ String.intercalate ", " items ++ "]"

/-- The whole content of an entry, as it stands in an error message. -/
def describe (c : Constant) : String :=
  let pair (label first second : String) (a b : UInt16) :=
    record label [(first, toString a.toNat), (second, toString b.toNat)]
  let index (label name : String) (a : UInt16) := record label [(name, toString a.toNat)]
  let member (a b : UInt16) :=
    wrapped c.kindName (pair "RefInfo" "class_index" "name_and_type_index" a b)
  let computed (a b : UInt16) :=
    wrapped c.kindName (pair "DynamicInfo" "bootstrap_method_attr_index" "name_and_type_index" a b)
  match c with
  | utf8 s => wrapped "Utf8" (Text.quoted s)
  | utf8Unpaired us => wrapped "Utf8Unpaired" (bracketed (us.map fun u => toString u.toNat))
  | integer i => wrapped "Integer" (toString i.toInt)
  | float bits => wrapped "Float" (Decimal.marked.single bits)
  | long i => wrapped "Long" (toString i.toInt)
  | double bits => wrapped "Double" (Decimal.marked.double bits)
  | classRef i => wrapped "Class" (index "ClassInfo" "name_index" i)
  | stringRef i => index "String" "string_index" i
  | fieldRef a b | methodRef a b | interfaceMethodRef a b => member a b
  | nameAndType a b =>
    wrapped "NameAndType" (pair "NameAndTypeInfo" "name_index" "descriptor_index" a b)
  | methodHandle kind i =>
    wrapped "MethodHandle" (record "MethodHandleInfo"
      [("reference_kind", toString kind.toNat), ("reference_index", toString i.toNat)])
  | methodType i => wrapped "MethodType" (index "MethodTypeInfo" "descriptor_index" i)
  | dynamic a b | invokeDynamic a b => computed a b
  | moduleRef i => index "Module" "name_index" i
  | packageRef i => index "Package" "name_index" i
  | unusable => "Unusable"

end Constant

/-- What a reference asks of the entry it points at. -/
inductive Role where
  | text
  /-- Text in either form. -/
  | anyText
  | integer
  | float
  | long
  | double
  | classRef
  | nameAndType
  | fieldRef
  | methodRef
  | interfaceMethodRef
  | anyMethodRef
  | memberRef
  | methodHandle
  | invokeDynamic
  | loadable
  /-- What a two-slot load instruction may push. -/
  | wideLoadable
  | bootstrapArgument
  deriving DecidableEq

namespace Role

def name : Role → String
  | text | anyText => "Utf8"
  | integer => "Integer"
  | float => "Float"
  | long => "Long"
  | double => "Double"
  | classRef => "Class"
  | nameAndType => "NameAndType"
  | fieldRef => "FieldRef"
  | methodRef => "MethodRef"
  | interfaceMethodRef => "InterfaceMethodRef"
  | anyMethodRef => "MethodRef or InterfaceMethodRef"
  | memberRef => "FieldRef, MethodRef or InterfaceMethodRef"
  | methodHandle => "MethodHandle"
  | invokeDynamic => "InvokeDynamic"
  | loadable | wideLoadable | bootstrapArgument => "loadable constant"

def accepts : Role → Constant → Bool
  | text, .utf8 _ => true
  | anyText, .utf8 _ | anyText, .utf8Unpaired _ => true
  | integer, .integer _ => true
  | float, .float _ => true
  | long, .long _ => true
  | double, .double _ => true
  | classRef, .classRef _ => true
  | nameAndType, .nameAndType .. => true
  | fieldRef, .fieldRef .. => true
  | methodRef, .methodRef .. => true
  | interfaceMethodRef, .interfaceMethodRef .. => true
  | anyMethodRef, .methodRef .. | anyMethodRef, .interfaceMethodRef .. => true
  | memberRef, .fieldRef .. | memberRef, .methodRef .. | memberRef, .interfaceMethodRef .. => true
  | methodHandle, .methodHandle .. => true
  | invokeDynamic, .invokeDynamic .. => true
  | loadable, c => c.isLoadable
  | wideLoadable, .long _ | wideLoadable, .double _ | wideLoadable, .dynamic .. => true
  | bootstrapArgument, .long _ | bootstrapArgument, .double _ => true
  | bootstrapArgument, c => c.isLoadable
  | _, _ => false

end Role

end JvmClass
