import JvmClass.Error

/-!
# Constant pools

A pool numbers its slots from one. Lookups check the kind of the entry they find; `validate`
checks every reference between entries.
-/

namespace JvmClass

structure Pool where
  slots : Array Constant
  deriving DecidableEq, Inhabited

/-- A method that computes dynamic constants and call sites, with its static arguments. -/
structure BootstrapMethod where
  method : UInt16
  arguments : List UInt16
  deriving DecidableEq, Hashable, Inhabited

/-- Owner, name and descriptor of a field or method. -/
structure MemberName where
  owner : String
  name : String
  descriptor : String
  deriving DecidableEq

namespace Pool

def empty : Pool := ⟨#[]⟩

def size (p : Pool) : Nat := p.slots.size

def push (p : Pool) (c : Constant) : Pool := ⟨p.slots.push c⟩

/-- Adds an entry with the second slot it may need. -/
def append (p : Pool) (c : Constant) : Pool :=
  if c.slots = 2 then (p.push c).push .unusable else p.push c

@[simp]
theorem size_push (p : Pool) (c : Constant) : (p.push c).size = p.size + 1 := by
  simp [push, size]

theorem size_append (p : Pool) (c : Constant) : (p.append c).size = p.size + c.slots := by
  unfold append
  split
  · rename_i h
    simp [h]
  · cases c <;> simp_all [Constant.slots]

def get? (p : Pool) (index : UInt16) : Option Constant :=
  if index = 0 then none else p.slots[index.toNat - 1]?

def get (p : Pool) (index : UInt16) : Except Error Constant :=
  match p.get? index with
  | some c => .ok c
  | none => .error (.malformedConstant index (.outOfRange p.size))

theorem get?_eq_some_iff {p : Pool} {index : UInt16} {c : Constant} :
    p.get? index = some c ↔ index ≠ 0 ∧ p.slots.toList[index.toNat - 1]? = some c := by
  unfold get?
  split <;> simp [*]

theorem get_eq_ok {p : Pool} {index : UInt16} {c : Constant} :
    p.get index = .ok c ↔ p.get? index = some c := by
  unfold get
  cases p.get? index <;> simp

/-- The usable entries with their indices. -/
def usable (p : Pool) : List (UInt16 × Constant) :=
  (p.slots.toList.zipIdx 1).filterMap fun (c, i) =>
    if c.isUnusable then none else some (UInt16.ofNat i, c)

/-! ## Lookups -/

def text (p : Pool) (index : UInt16) : Except Error String := do
  match ← p.get index with
  | .utf8 s => return s
  | c => throw (.unexpectedConstant .text c)

/-- Text in either form, with U+FFFD for each unpaired surrogate. -/
def textLossy (p : Pool) (index : UInt16) : Except Error String := do
  match ← p.get index with
  | .utf8 s => return s
  | .utf8Unpaired us => return Text.ofUnitsLossy us
  | c => throw (.unexpectedConstant .text c)

def className (p : Pool) (index : UInt16) : Except Error String := do
  match ← p.get index with
  | .classRef name => p.text name
  | c => throw (.unexpectedConstant .classRef c)

def nameAndType (p : Pool) (index : UInt16) : Except Error (String × String) := do
  match ← p.get index with
  | .nameAndType name descriptor => return (← p.text name, ← p.text descriptor)
  | c => throw (.unexpectedConstant .nameAndType c)

def memberName (p : Pool) (index : UInt16) : Except Error MemberName := do
  match ← p.get index with
  | .fieldRef owner member | .methodRef owner member | .interfaceMethodRef owner member =>
    let (name, descriptor) ← p.nameAndType member
    return ⟨← p.className owner, name, descriptor⟩
  | c => throw (.unexpectedConstant .memberRef c)

/-! ## References between entries -/

/-- Checks that the reference to `target` in entry `index` is to an entry of the right kind. -/
def expect (p : Pool) (index target : UInt16) (role : Role) : Except Error Unit :=
  match p.get? target with
  | none => .error (.malformedConstant index (.danglingReference target))
  | some c =>
    if role.accepts c then .ok ()
    else .error (.malformedConstant index (.wrongReference target role c.kindName))

/-- What a method handle of the given kind refers to. -/
def handleRole? (kind : UInt8) : Option Role :=
  match kind.toNat with
  | 1 | 2 | 3 | 4 => some .fieldRef
  | 5 | 8 => some .methodRef
  | 6 | 7 => some .anyMethodRef
  | 9 => some .interfaceMethodRef
  | _ => none

/-- Checks the references of the entry at `index`. -/
def checkEntry (p : Pool) (index : UInt16) : Constant → Except Error Unit
  | .utf8 _ | .utf8Unpaired _ | .integer _ | .float _ | .long _ | .double _ | .unusable => .ok ()
  | .classRef name | .stringRef name | .moduleRef name | .packageRef name | .methodType name =>
    p.expect index name .anyText
  | .fieldRef owner member | .methodRef owner member | .interfaceMethodRef owner member => do
    p.expect index owner .classRef
    p.expect index member .nameAndType
  | .nameAndType name descriptor => do
    p.expect index name .anyText
    p.expect index descriptor .text
  | .methodHandle kind reference =>
    match handleRole? kind with
    | some role => p.expect index reference role
    | none => .error (.malformedConstant index (.invalidHandleKind kind))
  | .dynamic _ member | .invokeDynamic _ member => p.expect index member .nameAndType

def validate (p : Pool) : Except Error Unit :=
  p.usable.forM fun (index, c) => p.checkEntry index c

end Pool

end JvmClass
