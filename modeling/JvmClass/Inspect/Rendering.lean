import JvmClass.ClassFile
import JvmClass.Code.Layout

/-!
# Rendering entries and instructions

One line of text for a pool entry or an instruction, with every reference followed to the text it
stands for.
-/

namespace JvmClass

/-- The name of a method handle's kind. -/
def handleKindName (kind : UInt8) : String :=
  match kind.toNat with
  | 1 => "REF_getField"
  | 2 => "REF_getStatic"
  | 3 => "REF_putField"
  | 4 => "REF_putStatic"
  | 5 => "REF_invokeVirtual"
  | 6 => "REF_invokeStatic"
  | 7 => "REF_invokeSpecial"
  | 8 => "REF_newInvokeSpecial"
  | 9 => "REF_invokeInterface"
  | _ => "REF_unknown"

namespace Pool

/-- The text of an entry. A handle shows what it refers to, which may be a handle again; `depth`
such steps are followed. -/
def renderWithin (p : Pool) : (depth : Nat) → Constant → Except Error String
  | _, .utf8 s => .ok s
  | _, .utf8Unpaired us => .ok (Text.ofUnitsEscaped us)
  | _, .integer i => .ok (toString i.toInt)
  | _, .float bits => .ok (Decimal.plain.single bits ++ "f")
  | _, .long i => .ok (toString i.toInt ++ "L")
  | _, .double bits => .ok (Decimal.plain.double bits ++ "d")
  | _, .classRef i | _, .methodType i | _, .moduleRef i | _, .packageRef i => p.text i
  | _, .stringRef i => do
    match ← p.get i with
    | .utf8Unpaired us => return "\"" ++ Text.ofUnitsEscaped us ++ "\""
    | _ => return Text.quoted (← p.text i)
  | _, .fieldRef owner member | _, .methodRef owner member
  | _, .interfaceMethodRef owner member => do
    let (name, descriptor) ← p.nameAndType member
    return (← p.className owner) ++ "." ++ name ++ ":" ++ descriptor
  | _, .nameAndType name descriptor => do
    return (← p.text name) ++ ":" ++ (← p.text descriptor)
  | 0, .methodHandle _ reference => .error (.malformedConstant reference .nestedTooDeep)
  | depth + 1, .methodHandle kind reference => do
    return handleKindName kind ++ " " ++ (← p.renderWithin depth (← p.get reference))
  | _, .dynamic bootstrap member | _, .invokeDynamic bootstrap member => do
    let (name, descriptor) ← p.nameAndType member
    return "#" ++ toString bootstrap.toNat ++ ":" ++ name ++ ":" ++ descriptor
  | _, .unusable => .ok ""

/-- The text of an entry. A chain of handles that does not return to itself is no longer than the
pool. -/
def render (p : Pool) (c : Constant) : Except Error String :=
  p.renderWithin (p.size + 1) c

end Pool

namespace Instruction

def braces (content : String) : String := "\x7b " ++ content ++ " \x7d"

def renderCase (key : Int) (target : UInt32) : String :=
  toString key ++ ": " ++ toString target.toNat

/-- The cases of a switch, then its default. -/
def renderCases (cases : List String) (default : UInt32) : String :=
  braces (String.intercalate ", " cases ++ ", default: " ++ toString default.toNat)

/-- An instruction with operands that name a pool entry, and that entry as a comment. -/
def renderEntry (p : Pool) (o : Opcode) (operands : String) (index : UInt16) :
    Except Error String := do
  let entry ← p.render (← p.get index)
  return o.mnemonic ++ " " ++ operands ++ " // " ++ entry

def render (p : Pool) (i : Instruction) : Except Error String :=
  let name := i.opcode.mnemonic
  let hash (index : UInt16) := "#" ++ toString index.toNat
  match i with
  | simple _ => .ok name
  | access o slot _ =>
    .ok (if o.implicitSlot?.isSome then name else name ++ " " ++ toString slot.toNat)
  | increment slot delta _ =>
    .ok (name ++ " " ++ toString slot.toNat ++ ", " ++ toString delta.toInt)
  | push _ value => .ok (name ++ " " ++ toString value.toInt)
  | constant _ index | field _ index | invoke _ index | invokeDynamic index | typed _ index =>
    renderEntry p i.opcode (hash index) index
  | invokeInterface index count | multiNewArray index count =>
    renderEntry p i.opcode (hash index ++ ", " ++ toString count.toNat) index
  | newArray element => .ok (name ++ " " ++ element.name)
  | branch _ target => .ok (name ++ " " ++ toString target.toNat)
  | tableSwitch default low _ targets =>
    let cases := targets.zipIdx.map fun (target, n) => renderCase (low.toInt + n) target
    .ok (name ++ " " ++ renderCases cases default)
  | lookupSwitch default [] => .ok (name ++ " " ++ braces ("default: " ++ toString default.toNat))
  | lookupSwitch default pairs =>
    let cases := pairs.map fun (key, target) => renderCase key.toInt target
    .ok (name ++ " " ++ renderCases cases default)

end Instruction

end JvmClass
