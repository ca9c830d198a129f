import JvmClass.Constant
import JvmClass.Opcode

/-!
# Errors

Everything that can go wrong, as causes. The wording is in the `message` functions and nowhere
else.
-/

namespace JvmClass

/-- What is wrong with a pool entry, or with a reference to one. -/
inductive PoolFault where
  | outOfRange (slots : Nat)
  | noCount
  | lastSlot (kind : String)
  | unknownTag (tag : UInt8)
  | invalidText
  | danglingReference (target : UInt16)
  | wrongReference (target : UInt16) (expected : Role) (found : String)
  | invalidHandleKind (kind : UInt8)
  | noSuchBootstrap (bootstrap : UInt16)
  | dependsOnItself
  | wrongOperand (opcode : Opcode) (found : String)
  | nestedTooDeep
  | secondSlot
  | missingBootstrap (bootstrap : UInt16)

/-- Pool references are followed this deep when an entry is copied. -/
def maxReferenceNesting : Nat := 256

/-- Element values nest this deep. -/
def maxElementNesting : Nat := 256

def PoolFault.message : PoolFault → String
  | outOfRange slots => "index out of range 1..=" ++ toString slots
  | noCount => "constant_pool_count must be at least 1"
  | lastSlot kind => kind ++ " entry in the last slot"
  | unknownTag tag => "unknown tag " ++ toString tag.toNat
  | invalidText => "invalid modified UTF-8"
  | danglingReference target => "reference #" ++ toString target.toNat ++ " is out of range"
  | wrongReference target expected found =>
    "reference #" ++ toString target.toNat ++ " should be " ++ expected.name ++ ", found " ++ found
  | invalidHandleKind kind => "invalid method handle kind " ++ toString kind.toNat
  | noSuchBootstrap bootstrap =>
    "bootstrap method " ++ toString bootstrap.toNat ++ " does not exist"
  | dependsOnItself => "dynamic constant depends on itself"
  | wrongOperand opcode found => opcode.mnemonic ++ " cannot use a " ++ found ++ " entry"
  | nestedTooDeep => "references nested deeper than " ++ toString maxReferenceNesting
  | secondSlot => "second slot of a long or double"
  | missingBootstrap bootstrap =>
    "bootstrap method " ++ toString bootstrap.toNat ++ " is missing from BootstrapMethods"

/-- What is wrong with the bytes or operands of an instruction. -/
inductive CodeFault where
  | needsWideForm
  | deltaTooLarge
  | pushTooLarge
  | unknownArrayType (code : UInt8)
  | emptySwitchRange
  | negativePairCount
  | notWidened (opcode : Opcode)

def CodeFault.message : CodeFault → String
  | needsWideForm => "operand needs the wide form"
  | deltaTooLarge => "iinc delta does not fit in a byte"
  | pushTooLarge => "bipush value does not fit in a byte"
  | unknownArrayType code => "unknown array type " ++ toString code.toNat
  | emptySwitchRange => "tableswitch high is below low"
  | negativePairCount => "negative lookupswitch pair count"
  | notWidened opcode => "wide cannot modify " ++ opcode.mnemonic

/-- What is wrong with an attribute. -/
inductive AttributeFault where
  | endsEarly (offset : Nat)
  | unread (count offset : Nat)
  | reservedFrame (type : UInt8) (offset : Nat)
  | unknownVerificationType (tag : UInt8) (offset : Nat)
  | elementsTooDeep (offset : Nat)
  | unknownElementTag (tag : UInt8) (offset : Option Nat)
  | chopCount (count : Nat)
  | appendCount (count : Nat)
  | code (fault : CodeFault) (offset : Nat)
  | switchTooLong (low : Int32) (targets : Nat)
  | noBoundary (offset : UInt16)

def AttributeFault.message : AttributeFault → String
  | endsEarly offset => "payload ends early at byte offset " ++ toString offset
  | unread count offset => toString count ++ " unread bytes at offset " ++ toString offset
  | reservedFrame type offset =>
    "reserved frame type " ++ toString type.toNat ++ " at offset " ++ toString offset
  | unknownVerificationType tag offset =>
    "unknown verification type " ++ toString tag.toNat ++ " at offset " ++ toString offset
  | elementsTooDeep offset =>
    "element values nested deeper than " ++ toString maxElementNesting ++ " at offset " ++
      toString offset
  | unknownElementTag tag offset =>
    "unknown element value tag " ++ Text.quotedChar (Char.ofNat tag.toNat) ++
      match offset with
      | some offset => " at offset " ++ toString offset
      | none => ""
  | chopCount count => "chop frame removes " ++ toString count ++ " locals"
  | appendCount count => "append frame adds " ++ toString count ++ " locals"
  | code fault offset => fault.message ++ " at offset " ++ toString offset
  | switchTooLong low targets =>
    "tableswitch from " ++ toString low.toInt ++ " cannot hold " ++ toString targets ++ " targets"
  | noBoundary offset => "offset " ++ toString offset.toNat ++ " is not an instruction boundary"

/-- The tables whose size is limited. -/
inductive Table where
  | interfaces | fields | methods | attributes | attributePayload | exceptions | nestMembers
  | permittedSubclasses | lineNumbers | localVariables | stackMapFrames | innerClasses
  | bootstrapMethods | bootstrapArguments | methodParameters | parameterAnnotations
  | recordComponents | exceptionTable | verificationTypes | annotations | elementValuePairs
  | elementValues | code | operandStack | newBootstrapMethods
  deriving DecidableEq

def Table.name : Table → String
  | interfaces => "interfaces"
  | fields => "fields"
  | methods => "methods"
  | attributes => "attributes"
  | attributePayload => "attribute payload"
  | exceptions => "exceptions"
  | nestMembers => "nest members"
  | permittedSubclasses => "permitted subclasses"
  | lineNumbers => "line numbers"
  | localVariables => "local variables"
  | stackMapFrames => "stack map frames"
  | innerClasses => "inner classes"
  | bootstrapMethods => "bootstrap methods"
  | bootstrapArguments => "bootstrap arguments"
  | methodParameters => "method parameters"
  | parameterAnnotations => "parameter annotations"
  | recordComponents => "record components"
  | exceptionTable => "exception table"
  | verificationTypes => "verification types"
  | annotations => "annotations"
  | elementValuePairs => "element value pairs"
  | elementValues => "element values"
  | code => "code"
  | operandStack => "operand stack"
  | newBootstrapMethods => "BootstrapMethods"

inductive Error where
  /-- The output buffer has no room for the next piece. -/
  | bufferFull
  | invalidMagic (found : UInt32)
  | unsupportedVersion (major minor : UInt16)
  | truncated (offset : Nat)
  | trailingData (offset : Nat)
  | malformedConstant (index : UInt16) (fault : PoolFault)
  | unexpectedConstant (expected : Role) (found : Constant)
  | malformedAttribute (name : String) (fault : AttributeFault)
  | unknownOpcode (code : UInt8) (offset : Nat)
  | invalidBranchTarget (offset : Nat) (target : Int)
  | branchOutOfRange (offset : Nat) (delta : Int)
  | unbalancedStack (offset : Nat) (opcode : Opcode) (needed available : Nat)
  | memberNotFound (name descriptor : String)
  | duplicateMember (name descriptor : String)
  | invalidDescriptor (text : String)
  | unboundLabel (label : UInt32)
  | poolOverflow
  | textTooLong (length : Nat)
  | tooManyEntries (table : Table) (count : Nat)

def Error.message : Error → String
  | bufferFull => "failed to write whole buffer"
  | invalidMagic found => "Invalid magic identifier: 0x" ++ Text.hexUpper found.toNat
  | unsupportedVersion major minor =>
    "Unsupported class file version " ++ toString major.toNat ++ "." ++ toString minor.toNat
  | truncated offset => "Input truncated at byte offset " ++ toString offset
  | trailingData offset => "Unexpected trailing data at byte offset " ++ toString offset
  | malformedConstant index fault =>
    "Malformed constant pool entry #" ++ toString index.toNat ++ ": " ++ fault.message
  | unexpectedConstant expected found =>
    "Expected " ++ expected.name ++ ", found " ++ found.describe
  | malformedAttribute name fault => "Malformed " ++ name ++ " attribute: " ++ fault.message
  | unknownOpcode code offset =>
    "Unknown opcode 0x" ++ Text.padLeft 2 '0' (Text.hexUpper code.toNat) ++ " at offset " ++
      toString offset
  | invalidBranchTarget offset target =>
    "Instruction at offset " ++ toString offset ++ " targets " ++ toString target ++
      ", which is not an instruction boundary"
  | branchOutOfRange offset delta =>
    "Branch at offset " ++ toString offset ++ " cannot reach its target (delta " ++
      toString delta ++ ")"
  | unbalancedStack offset opcode needed available =>
    "Unbalanced stack at offset " ++ toString offset ++ ": " ++ opcode.mnemonic ++ " pops " ++
      toString needed ++ " slots but only " ++ toString available ++ " are available"
  | memberNotFound name descriptor => "Member not found: " ++ name ++ " " ++ descriptor
  | duplicateMember name descriptor => "Duplicate member: " ++ name ++ " " ++ descriptor
  | invalidDescriptor text => "Invalid descriptor: " ++ Text.quoted text
  | unboundLabel label => "Label " ++ toString label.toNat ++ " is used but never bound"
  | poolOverflow => "Constant pool overflow: more than 65535 slots"
  | textTooLong length =>
    "Utf8 constant is " ++ toString length ++ " bytes long, the limit is 65535"
  | tooManyEntries table count => "Too many entries in " ++ table.name ++ ": " ++ toString count

namespace Error

/-- A fault of the instruction at `offset`. -/
def ofCode (offset : Nat) (fault : CodeFault) : Error :=
  malformedAttribute "Code" (.code fault offset)

/-- A payload that ends early is the fault of its attribute. -/
def inAttribute (name : String) : Error → Error
  | truncated offset => malformedAttribute name (.endsEarly offset)
  | e => e

end Error

/-- The two-byte count in front of a table. -/
def Table.count (table : Table) (n : Nat) : Except Error Bytes :=
  if n < 0x10000 then .ok (Bytes.ofCount n) else .error (.tooManyEntries table n)

/-- The one-byte count in front of a table. -/
def Table.shortCount (table : Table) (n : Nat) : Except Error Bytes :=
  if n < 0x100 then .ok [UInt8.ofNat n] else .error (.tooManyEntries table n)

end JvmClass
