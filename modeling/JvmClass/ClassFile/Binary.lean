import JvmClass.Attribute.Binary
import JvmClass.ClassFile
import JvmClass.Pool.Binary
import JvmClass.Pool.Dynamic

/-!
# Binary form of class files

A file is read in one pass and has to end with the class. It is written in pieces: the header and
the pool piece by piece, and all that follows the superclass at once, so a buffer that is too
small is noticed before a fault further on.
-/

namespace JvmClass

/-! ## Writing -/

def Member.encode (m : Member) : Except Error Bytes := do
  return Bytes.ofU16 m.access.bits ++ Bytes.ofU16 m.name ++ Bytes.ofU16 m.descriptor ++
    (← Attribute.encodeTable m.attributes)

namespace ClassFile

/-- Interfaces, fields, methods and attributes. -/
def encodeBody (c : ClassFile) : Except Error Bytes := do
  let interfaces ← encodeIndices .interfaces c.interfaces
  let fieldCount ← Table.fields.count c.fields.length
  let fields ← concatM Member.encode c.fields
  let methodCount ← Table.methods.count c.methods.length
  let methods ← concatM Member.encode c.methods
  let attributes ← Attribute.encodeTable c.attributes
  return interfaces ++ fieldCount ++ fields ++ methodCount ++ methods ++ attributes

/-- The pieces in which a class is written. -/
def pieces (c : ClassFile) : List (Except Error Bytes) :=
  [.ok (Bytes.ofU32 magic), .ok (Bytes.ofU16 c.minor), .ok (Bytes.ofU16 c.major)] ++
    c.pool.pieces ++
    [.ok (Bytes.ofU16 c.access.bits), .ok (Bytes.ofU16 c.thisClass),
      .ok (Bytes.ofU16 c.superClass), c.encodeBody]

def encode (c : ClassFile) : Except Error Bytes :=
  concatM id c.pieces

/-- Whether a class can be written to a buffer of `room` bytes. -/
def encodeWithin (c : ClassFile) (room : Nat) : Except Error Unit := do
  let _ ← c.pieces.foldlM (fun room piece => do
    let bytes ← piece
    if bytes.length ≤ room then return room - bytes.length else throw .bufferFull) room

end ClassFile

/-! ## Reading -/

open Reader

/-- Records an event about two texts of the pool, if there is a log. Only then are they looked
up. -/
def recordTexts (p : Pool) (event : String → String → Event) (first second : UInt16) :
    Reader Unit := fun c =>
  if c.log.isOn then
    (do
      let a ← ofExcept (p.textLossy first)
      let b ← ofExcept (p.textLossy second)
      Reader.record (event a b) : Reader Unit) c
  else .ok () c

def Member.read (p : Pool) (depth : Nat) (event : String → String → Event) : Reader Member := do
  let access ← u16
  let name ← u16
  let descriptor ← u16
  let attributes ← Attribute.readTable p depth
  recordTexts p event name descriptor
  return ⟨⟨access⟩, name, descriptor, attributes⟩

namespace ClassFile

/-- Magic number and version, the minor part first. -/
def readHeader : Reader (UInt16 × UInt16) := do
  let found ← u32
  if found ≠ magic then throw (.invalidMagic found)
  let minor ← u16
  let major ← u16
  if major < minMajor || maxMajor < major then throw (.unsupportedVersion major minor)
  return (minor, major)

/-- Fails unless all bytes are read. -/
def readEnd : Reader Unit := fun c =>
  if c.bytes.isEmpty then .ok () c else .error (.trailingData c.offset) c

/-- Reads a class in which attributes nest less than `depth` deep. -/
def reader (depth : Nat) : Reader ClassFile := do
  let (minor, major) ← readHeader
  let pool ← Pool.read
  ofExcept pool.validate
  let access ← u16
  let thisClass ← u16
  let name ← ofExcept (pool.className thisClass)
  let superClass ← u16
  if superClass ≠ 0 then
    let _ ← ofExcept (pool.className superClass)
  let interfaces ← u16Table
  let fields ← table 8 (Member.read pool depth .field)
  let methods ← table 8 (Member.read pool depth .method)
  let attributes ← Attribute.readTable pool depth
  ofExcept (pool.validateBootstrap ((Attribute.bootstrapMethods? attributes).getD []))
  readEnd
  Reader.record (.parsed name major minor pool.size fields.length methods.length)
  return { minor, major, pool, access := ⟨access⟩, thisClass, superClass, interfaces, fields,
           methods, attributes }

/-- Reads a class and keeps a log. -/
def readLogged (bytes : Bytes) (log : Log) : Except Error ClassFile × Log :=
  match reader bytes.length (.start bytes log) with
  | .ok c rest => (.ok c, rest.log)
  | .error e rest => (.error e, rest.log)

def read (bytes : Bytes) : Except Error ClassFile :=
  (readLogged bytes .off).1

end ClassFile

end JvmClass
