import JvmClass.ClassFile.Binary
import JvmClass.Edit
import JvmClass.Relocation

/-!
# Building a draft

A draft becomes a class with a pool of its own. Entries are entered in the order in which the
new class mentions them: the class, its superclass and interfaces, fields, methods, and the
attributes of the class. Building what was built therefore yields the same bytes again.
-/

namespace JvmClass.Draft

open Build

def importSource (c : ClassFile) : ImportSource := ⟨c.pool, c.bootstrapMethods.toArray⟩

/-- A member of the base class, without new code. -/
def copyMember (source : ImportSource) (m : Member) (access : Access) : Build Member := do
  let name ← Relocation.index source m.name
  let descriptor ← Relocation.index source m.descriptor
  return ⟨access, name, descriptor, ← Relocation.attributes source m.attributes⟩

/-- The `Code` attribute for new code. -/
def emitCode (access : Access) (descriptor : String) (code : List Command) : Build Attribute := do
  let name ← grow (.text "Code")
  return ⟨name, .code (← grow (Code.emit code access.isStatic descriptor))⟩

/-- The attributes of a method with new code in place of the first code among them, in the order
of the old ones, behind those done so far, which stand in reverse. Code for which there is no
place is still pending in the end. -/
def replaceCodeAfter (source : ImportSource) (emitted : Build Attribute) :
    (done : List Attribute) → (pending : Bool) → List Attribute → Build (List Attribute × Bool)
  | done, pending, [] => pure (done.reverse, pending)
  | done, pending, a :: rest => do
    match a.payload with
    | .code _ =>
      if pending then replaceCodeAfter source emitted ((← emitted) :: done) false rest
      else replaceCodeAfter source emitted done false rest
    | _ =>
      match ← Relocation.attribute? source none a with
      | some a => replaceCodeAfter source emitted (a :: done) pending rest
      | none => replaceCodeAfter source emitted done pending rest

/-- The attributes of a method with new code, which comes first if there was none before. -/
def replaceCode (source : ImportSource) (emitted : Build Attribute) (old : List Attribute) :
    Build (List Attribute) := do
  let (attributes, pending) ← replaceCodeAfter source emitted [] true old
  if pending then return (← emitted) :: attributes else return attributes

def buildField (source : ImportSource) : MemberDraft → Build Member
  | .kept m _ access _ => copyMember source m (access.getD m.access)
  | .added key access _ => do
    return ⟨access, ← grow (.text key.name), ← grow (.text key.descriptor), []⟩

def buildMethod (source : ImportSource) (d : MemberDraft) : Build Member := do
  record (.emitting d.key.name d.key.descriptor)
  match d with
  | .kept m _ access none => copyMember source m (access.getD m.access)
  | .kept m key access (some code) =>
    let access := access.getD m.access
    let name ← grow (.text key.name)
    let descriptor ← grow (.text key.descriptor)
    let emitted := emitCode access key.descriptor code
    return ⟨access, name, descriptor, ← replaceCode source emitted m.attributes⟩
  | .added key access code =>
    let name ← grow (.text key.name)
    let descriptor ← grow (.text key.descriptor)
    match code with
    | some code => return ⟨access, name, descriptor, [← emitCode access key.descriptor code]⟩
    | none => return ⟨access, name, descriptor, []⟩

/-- The bootstrap methods entered on the way, as the last attribute of the class. -/
def buildBootstrap : Build (List Attribute) := do
  if (← get).pool.bootstrap.isEmpty then return []
  else
    let name ← grow (.text "BootstrapMethods")
    return [⟨name, .bootstrapMethods (← get).pool.bootstrap.toList⟩]

/-- Everything about a draft without a failure. -/
def assembleClass (d : Draft) : Build ClassFile := do
  record (.building d.thisClass d.fields.length d.methods.length)
  let source := (d.base.map importSource).getD ⟨.empty, #[]⟩
  let thisClass ← grow (.classRef d.thisClass)
  let superClass ← match d.superClass with
    | some name => grow (.classRef name)
    | none => pure 0
  let interfaces ← d.interfaces.mapM fun name => grow (.classRef name)
  let fields ← d.fields.mapM (buildField source)
  let methods ← d.methods.mapM (buildMethod source)
  let attributes ← match d.base with
    | some c => Relocation.attributes source c.attributes
    | none => pure []
  let bootstrap ← buildBootstrap
  return { minor := d.minor, major := d.major, pool := (← get).pool.pool, access := d.access,
           thisClass, superClass, interfaces, fields, methods,
           attributes := attributes ++ bootstrap }

/-- Builds the class of a draft and keeps a log. -/
def buildLogged (d : Draft) (log : Log) : Except Error ClassFile × Log :=
  match d.failure with
  | some e => (.error e, log)
  | none =>
    match d.assembleClass ⟨.empty, log⟩ with
    | .ok c b => (.ok c, b.log)
    | .error e b => (.error e, b.log)

def build (d : Draft) : Except Error ClassFile := (d.buildLogged .off).1

end JvmClass.Draft
