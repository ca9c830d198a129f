import JvmClass.ClassFile
import JvmClass.Code.Emission

/-!
# Edit scripts

A draft is a class under edit, begun from nothing or from a base class. An edit changes the
header of the draft or its lists of fields and methods. Nothing is built before the script ends;
the first edit that cannot be applied is remembered, and the rest of the script changes nothing
about that failure.
-/

namespace JvmClass

/-- Name and descriptor, which identify a field or a method of a class. -/
structure MemberKey where
  name : String
  descriptor : String
  deriving DecidableEq

def MemberKey.text (k : MemberKey) : String := k.name ++ " " ++ k.descriptor

/-- A field or method of a draft: where it comes from and what is new about it. -/
inductive MemberDraft where
  /-- A member of the base class, with new flags or new code where there are any. -/
  | kept (base : Member) (key : MemberKey) (access : Option Access) (code : Option (List Command))
  | added (key : MemberKey) (access : Access) (code : Option (List Command))

namespace MemberDraft

def key : MemberDraft → MemberKey
  | kept _ key _ _ => key
  | added key _ _ => key

def withAccess (access : Access) : MemberDraft → MemberDraft
  | kept base key _ code => kept base key (some access) code
  | added key _ code => added key access code

def withCode (code : List Command) : MemberDraft → MemberDraft
  | kept base key access _ => kept base key access (some code)
  | added key access _ => added key access (some code)

end MemberDraft

inductive Edit where
  | access (access : Access)
  | superClass (name : String)
  | interfaces (names : List String)
  | version (major minor : UInt16)
  | field (access : Access) (key : MemberKey)
  | method (access : Access) (key : MemberKey) (code : Option (List Command))
  | methodAccess (key : MemberKey) (access : Access)
  | fieldAccess (key : MemberKey) (access : Access)
  | methodCode (key : MemberKey) (code : List Command)
  | removeMethod (key : MemberKey)
  | removeField (key : MemberKey)

structure Draft where
  base : Option ClassFile
  thisClass : String
  major : UInt16
  minor : UInt16
  access : Access
  superClass : Option String
  interfaces : List String
  fields : List MemberDraft
  methods : List MemberDraft
  /-- The failure of the first edit that could not be applied. -/
  failure : Option Error

namespace Draft

/-- An empty public class below `java/lang/Object`, of the last version whose code needs no stack
map frames. -/
def new (name : String) : Draft where
  base := none
  thisClass := name
  major := 49
  minor := 0
  access := .publicSuper
  superClass := some "java/lang/Object"
  interfaces := []
  fields := []
  methods := []
  failure := none

def keep (c : ClassFile) (m : Member) : Except Error MemberDraft := do
  return .kept m ⟨← c.memberName m, ← c.memberDescriptor m⟩ none none

/-- A draft of a class as it is. -/
def ofClass (c : ClassFile) : Except Error Draft := do
  let fields ← c.fields.mapM (keep c)
  let methods ← c.methods.mapM (keep c)
  let thisClass ← c.className
  let superClass ← c.superName?
  let interfaces ← c.interfaceNames
  return { base := some c, thisClass, major := c.major, minor := c.minor, access := c.access,
           superClass, interfaces, fields, methods, failure := none }

/-- Remembers a failure, unless there is one already. -/
def fail (d : Draft) (e : Error) : Draft :=
  { d with failure := d.failure <|> some e }

/-- Remembers the failure of a check. -/
def check {α : Type} (d : Draft) (x : Except Error α) : Draft :=
  match x with
  | .ok _ => d
  | .error e => d.fail e

def find? (members : List MemberDraft) (key : MemberKey) : Option Nat :=
  members.findIdx? fun m => m.key = key

def missing (key : MemberKey) : Error := .memberNotFound key.name key.descriptor

def duplicate (key : MemberKey) : Error := .duplicateMember key.name key.descriptor

def insertField (d : Draft) (access : Access) (key : MemberKey) : Draft :=
  match find? d.fields key with
  | some _ => d.fail (duplicate key)
  | none => { d with fields := d.fields ++ [.added key access none] }

def insertMethod (d : Draft) (access : Access) (key : MemberKey) (code : Option (List Command)) :
    Draft :=
  match find? d.methods key with
  | some _ => d.fail (duplicate key)
  | none => { d with methods := d.methods ++ [.added key access code] }

/-- Changes the first method with a key. -/
def changeMethod (d : Draft) (key : MemberKey) (change : MemberDraft → MemberDraft) : Draft :=
  match find? d.methods key with
  | some i => { d with methods := d.methods.modify i change }
  | none => d.fail (missing key)

/-- Changes the first field with a key. -/
def changeField (d : Draft) (key : MemberKey) (change : MemberDraft → MemberDraft) : Draft :=
  match find? d.fields key with
  | some i => { d with fields := d.fields.modify i change }
  | none => d.fail (missing key)

def apply (d : Draft) : Edit → Draft
  | .access access => { d with access }
  | .superClass name => { d with superClass := some name }
  | .interfaces names => { d with interfaces := names }
  | .version major minor => { d with major, minor }
  | .field access key => (d.check (FieldType.parse key.descriptor)).insertField access key
  | .method access key code =>
    (d.check (MethodType.parse key.descriptor)).insertMethod access key code
  | .methodAccess key access => d.changeMethod key (.withAccess access)
  | .fieldAccess key access => d.changeField key (.withAccess access)
  | .methodCode key code => d.changeMethod key (.withCode code)
  | .removeMethod key =>
    match find? d.methods key with
    | some i => { d with methods := d.methods.eraseIdx i }
    | none => d.fail (missing key)
  | .removeField key =>
    match find? d.fields key with
    | some i => { d with fields := d.fields.eraseIdx i }
    | none => d.fail (missing key)

def applyAll (d : Draft) (edits : List Edit) : Draft := edits.foldl apply d

end Draft

end JvmClass
