import JvmClass.Reader

/-!
# Stack map frames

The types of local variables and operands at points of the code, each relative to the frame
before it. Offsets are kept as differences, the way they are stored: the first frame stands at
its difference, each later one a byte further on. The extended forms store the difference in two
bytes even where one would do, and are kept apart from the compact ones.
-/

namespace JvmClass

inductive VerificationType where
  | top
  | integer
  | float
  | double
  | long
  | null
  | uninitializedThis
  | object (index : UInt16)
  /-- A value that the `new` instruction at `offset` made. -/
  | uninitialized (offset : UInt16)
  deriving DecidableEq

inductive Frame where
  | same (delta : UInt16)
  | sameExtended (delta : UInt16)
  | oneItem (delta : UInt16) (item : VerificationType)
  | oneItemExtended (delta : UInt16) (item : VerificationType)
  | chop (delta : UInt16) (count : UInt8)
  | append (delta : UInt16) (locals : List VerificationType)
  | full (delta : UInt16) (locals stack : List VerificationType)
  deriving DecidableEq

namespace Frame

def delta : Frame → UInt16
  | same d | sameExtended d | oneItem d _ | oneItemExtended d _ | chop d _ | append d _
  | full d _ _ => d

def withDelta (d : UInt16) : Frame → Frame
  | same _ => same d
  | sameExtended _ => sameExtended d
  | oneItem _ item => oneItem d item
  | oneItemExtended _ item => oneItemExtended d item
  | chop _ count => chop d count
  | append _ locals => append d locals
  | full _ locals stack => full d locals stack

@[simp]
theorem delta_withDelta (d : UInt16) (frame : Frame) : (frame.withDelta d).delta = d := by
  cases frame <;> rfl

@[simp]
theorem withDelta_delta (frame : Frame) : frame.withDelta frame.delta = frame := by
  cases frame <;> rfl

/-- Passes every verification type through `f`, locals before the stack. -/
def mapTypes {m : Type → Type} [Monad m] (f : VerificationType → m VerificationType) :
    Frame → m Frame
  | oneItem d item => do return oneItem d (← f item)
  | oneItemExtended d item => do return oneItemExtended d (← f item)
  | append d locals => do return append d (← locals.mapM f)
  | full d locals stack => do return full d (← locals.mapM f) (← stack.mapM f)
  | frame => pure frame

/-- The offsets of frames behind a frame at `previous`, behind the offsets so far, which stand in
reverse. -/
def offsetsAfter : (previous : Option Nat) → List Nat → List Frame → List Nat
  | _, found, [] => found.reverse
  | previous, found, frame :: rest =>
    let offset := match previous with
      | none => frame.delta.toNat
      | some p => p + frame.delta.toNat + 1
    offsetsAfter (some offset) (offset :: found) rest

/-- The offset in the code of every frame of a table. -/
def offsets (frames : List Frame) : List Nat :=
  offsetsAfter none [] frames

end Frame

/-! ## Binary form -/

namespace VerificationType

def encode : VerificationType → Bytes
  | top => [0]
  | integer => [1]
  | float => [2]
  | double => [3]
  | long => [4]
  | null => [5]
  | uninitializedThis => [6]
  | object index => 7 :: Bytes.ofU16 index
  | uninitialized offset => 8 :: Bytes.ofU16 offset

def encodeTable (types : List VerificationType) : Except Error Bytes := do
  return (← Table.verificationTypes.count types.length) ++ types.flatMap encode

open Reader in
def read : Reader VerificationType := do
  let start ← offset
  let tag ← u8
  match tag.toNat with
  | 0 => return top
  | 1 => return integer
  | 2 => return float
  | 3 => return double
  | 4 => return long
  | 5 => return null
  | 6 => return uninitializedThis
  | 7 => return object (← u16)
  | 8 => return uninitialized (← u16)
  | _ => throw (.malformedAttribute "StackMapTable" (.unknownVerificationType tag start))

end VerificationType

namespace Frame

/-- The compact forms hold differences below this. -/
def compactLimit : Nat := 64

/-- Whether a frame may drop or add so many locals. -/
def fewLocals (n : Nat) : Bool := 1 ≤ n && n ≤ 3

/-- A compact frame whose difference has outgrown its form is written in the extended one. -/
def encode : Frame → Except Error Bytes
  | same d =>
    if d.toNat < compactLimit then .ok [UInt8.ofNat d.toNat] else .ok (251 :: Bytes.ofU16 d)
  | sameExtended d => .ok (251 :: Bytes.ofU16 d)
  | oneItem d item =>
    if d.toNat < compactLimit then .ok (UInt8.ofNat (64 + d.toNat) :: item.encode)
    else .ok (247 :: (Bytes.ofU16 d ++ item.encode))
  | oneItemExtended d item => .ok (247 :: (Bytes.ofU16 d ++ item.encode))
  | chop d count =>
    if fewLocals count.toNat then .ok (UInt8.ofNat (251 - count.toNat) :: Bytes.ofU16 d)
    else .error (.malformedAttribute "StackMapTable" (.chopCount count.toNat))
  | append d locals =>
    if fewLocals locals.length then
      .ok (UInt8.ofNat (251 + locals.length) ::
        (Bytes.ofU16 d ++ locals.flatMap VerificationType.encode))
    else .error (.malformedAttribute "StackMapTable" (.appendCount locals.length))
  | full d locals stack => do
    let locals ← VerificationType.encodeTable locals
    let stack ← VerificationType.encodeTable stack
    return 255 :: (Bytes.ofU16 d ++ locals ++ stack)

open Reader in
/-- Reads what follows the first byte of the frame at `start`. -/
def readTagged (start : Nat) (type : UInt8) : Reader Frame := do
  let t := type.toNat
  if t < 64 then return same (UInt16.ofNat t)
  else if t < 128 then return oneItem (UInt16.ofNat (t - 64)) (← VerificationType.read)
  else if t < 247 then throw (.malformedAttribute "StackMapTable" (.reservedFrame type start))
  else if t = 247 then return oneItemExtended (← u16) (← VerificationType.read)
  else if t < 251 then return chop (← u16) (UInt8.ofNat (251 - t))
  else if t = 251 then return sameExtended (← u16)
  else if t < 255 then return append (← u16) (← times (t - 251) VerificationType.read)
  else
    let d ← u16
    let locals ← table 1 VerificationType.read
    let stack ← table 1 VerificationType.read
    return full d locals stack

open Reader in
def read : Reader Frame := do
  let start ← offset
  readTagged start (← u8)

end Frame

end JvmClass
