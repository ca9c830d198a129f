import JvmClass.ClassFile.Binary
import JvmClass.Inspect.Views

/-!
# The report on a class

What the command line prints: one section after the other, up to the first fault. `run` is the
whole command as a function of its argument and of the file it names.
-/

namespace JvmClass

/-- A report in the making: the lines so far, which are kept when it stops at a fault. -/
abbrev Report := EStateM Error (Array String)

namespace Report

def line (s : String) : Report Unit := modify (·.push s)

def lines (ls : List String) : Report Unit := ls.forM line

def commaSeparated (names : List String) : String :=
  "[" ++ String.intercalate ", " names ++ "]"

def heading (c : ClassFile) : Report Unit := do
  line ("Class: " ++ (← ofExcept c.className))
  line ("Version: " ++ toString c.major.toNat ++ "." ++ toString c.minor.toNat)
  line ("Flags: 0x" ++ Text.padLeft 4 '0' (Text.hexLower c.access.bits.toNat) ++ " " ++
    commaSeparated c.access.classModifiers)
  let inheritance ← ofExcept c.inheritance
  if let some name := inheritance.superClass then line ("Super class: " ++ name)
  lines (inheritance.interfaces.map ("Implements: " ++ ·))

/-- A titled section, whose lines are all known before the first of them is printed. -/
def titled (title : String) (content : Except Error (List String)) : Report Unit := do
  line ""
  line title
  lines (← ofExcept content)

def annotations (c : ClassFile) : Except Error (List String) := do
  return (← Attribute.annotations c.attributes c.pool).flatMap fun a =>
    ("    @" ++ a.type) ::
      a.elements.map fun e => "        " ++ e.name ++ " = " ++ e.value.describe

def entries (c : ClassFile) : Except Error (List String) := do
  return (← c.entryViews).map fun e =>
    "    #" ++ Text.padRight 4 ' ' (toString e.index.toNat) ++ " " ++
      Text.padRight 20 ' ' e.kind ++ " " ++ e.value

def dependencies (c : ClassFile) : Except Error (List String) := do
  return (← c.dependencies).map ("    " ++ ·)

def fields (c : ClassFile) : Report Unit := do
  line ""
  line "Fields:"
  c.fields.forM fun f => do
    let name ← ofExcept (c.memberName f)
    let descriptor ← ofExcept (c.memberDescriptor f)
    line ("    " ++ name ++ " " ++ descriptor)

def variableLine (v : LocalVariableView) : String :=
  "        " ++ v.name ++ " " ++ v.descriptor ++ " (pc " ++ toString v.start.toNat ++ ".." ++
    toString (v.start.toNat + v.length.toNat) ++ ", slot " ++ toString v.slot.toNat ++ ")"

def method (c : ClassFile) (m : Member) (s : MethodSummary) : Report Unit := do
  line ""
  line ("Method: " ++ s.name ++ s.descriptor ++ " " ++ commaSeparated s.access.methodModifiers)
  if let (some maxStack, some maxLocals) := (s.maxStack, s.maxLocals) then
    line ("    max_stack=" ++ toString maxStack.toNat ++ " max_locals=" ++
      toString maxLocals.toNat ++ " instructions=" ++ toString s.instructionCount)
  lines ((← ofExcept (c.disassemble m)).map ("    " ++ ·))
  let locals ← ofExcept (c.localVariables m)
  if !locals.isEmpty then line "    Local variables:"
  lines (locals.map variableLine)

def ofClass (c : ClassFile) : Report Unit := do
  heading c
  titled "Annotations:" (annotations c)
  titled "Constant pool:" (entries c)
  titled "Dependencies:" (dependencies c)
  fields c
  let summaries ← ofExcept c.methodSummaries
  (c.methods.zip summaries).forM fun (m, s) => method c m s

/-- What a run of the command leaves behind. -/
structure Outcome where
  exitCode : UInt8
  stdout : String
  stderr : String

/-- Every line with its end. -/
def join (ls : List String) : String :=
  String.join (ls.map (· ++ "\n"))

/-- Runs the command on a path with what is found there: the bytes of a file, or the reason why
there are none. -/
def run : Option (String × Except String Bytes) → Outcome
  | none => ⟨2, "", "Usage: classkit <path/to/Some.class>\n"⟩
  | some (path, .error reason) => ⟨1, "", "Cannot read " ++ path ++ ": " ++ reason ++ "\n"⟩
  | some (path, .ok bytes) =>
    match ClassFile.read bytes with
    | .error e => ⟨1, "", "Cannot parse " ++ path ++ ": " ++ e.message ++ "\n"⟩
    | .ok c =>
      match ofClass c #[] with
      | .ok _ ls => ⟨0, join ls.toList, ""⟩
      | .error e ls => ⟨1, join ls.toList, " ERROR classkit > " ++ e.message ++ "\n"⟩

end Report

end JvmClass
