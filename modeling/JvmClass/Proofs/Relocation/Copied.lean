import JvmClass.Proofs.Pool.Symbol
import JvmClass.Relocation
import Mathlib.Data.List.Forall2

/-!
# Copies

`Copied S G a b` says that `b`, whose indices are those of the pool `G`, is a copy of `a`, whose
indices are those of `S`: every index stands for what it stood for, an index that is zero for none
stays zero, every offset follows the code it points into, and all else is as it was. The one
exception is a load of a constant beyond the reach of a one-byte index, which is widened. The
relations are stated for each part of a class on its own terms, not through the code that copies.
-/

namespace JvmClass

variable (S G : ImportSource)

/-! ## Code -/

/-- The instruction at the old target is the one at the new target. It is not the end of the code,
which has an offset, too. -/
def OffsetMap.Target (m : OffsetMap) (target target' : UInt32) : Prop :=
  ∃ index, m.indices[target.toNat]? = some index ∧ index + 1 < m.offsets.size ∧
    target' = UInt32.ofNat (m.offsets.getD index 0)

/-- The load instruction for a constant at `index`. -/
def Opcode.widened (o : Opcode) (index : UInt16) : Opcode :=
  if o = .ldc ∧ 0x100 ≤ index.toNat then .ldcW else o

inductive Instruction.Copied (m : OffsetMap) : Instruction → Instruction → Prop
  | simple {o} : Copied m (.simple o) (.simple o)
  | access {o slot wide} : Copied m (.access o slot wide) (.access o slot wide)
  | increment {slot delta wide} : Copied m (.increment slot delta wide) (.increment slot delta wide)
  | push {o value} : Copied m (.push o value) (.push o value)
  | constant {o i j} : SameSymbol S i G j → Copied m (.constant o i) (.constant (o.widened j) j)
  | field {o i j} : SameSymbol S i G j → Copied m (.field o i) (.field o j)
  | invoke {o i j} : SameSymbol S i G j → Copied m (.invoke o i) (.invoke o j)
  | invokeInterface {i j count} :
      SameSymbol S i G j → Copied m (.invokeInterface i count) (.invokeInterface j count)
  | invokeDynamic {i j} : SameSymbol S i G j → Copied m (.invokeDynamic i) (.invokeDynamic j)
  | typed {o i j} : SameSymbol S i G j → Copied m (.typed o i) (.typed o j)
  | newArray {element} : Copied m (.newArray element) (.newArray element)
  | multiNewArray {i j dimensions} :
      SameSymbol S i G j → Copied m (.multiNewArray i dimensions) (.multiNewArray j dimensions)
  | branch {o t t'} : m.Target t t' → Copied m (.branch o t) (.branch o t')
  | tableSwitch {d d' low high ts ts'} : m.Target d d' → List.Forall₂ m.Target ts ts' →
      Copied m (.tableSwitch d low high ts) (.tableSwitch d' low high ts')
  | lookupSwitch {d d' pairs pairs'} : m.Target d d' →
      List.Forall₂ (fun p p' => p'.1 = p.1 ∧ m.Target p.2 p'.2) pairs pairs' →
      Copied m (.lookupSwitch d pairs) (.lookupSwitch d' pairs')

structure Handler.Copied (m : OffsetMap) (h h' : Handler) : Prop where
  start : m.find h.start = .ok h'.start
  stop : m.find h.stop = .ok h'.stop
  handler : m.find h.handler = .ok h'.handler
  catchType : SameOptional S h.catchType G h'.catchType

/-! ## Tables about code -/

section Tables

variable (moved : Option OffsetMap)

structure LineNumber.Copied (l l' : LineNumber) : Prop where
  start : moveOffset moved l.start = .ok l'.start
  line : l'.line = l.line

structure LocalVariable.Copied (v v' : LocalVariable) : Prop where
  range : match moved with
    | some m => m.findRange v.start v.length = .ok (v'.start, v'.length)
    | none => v'.start = v.start ∧ v'.length = v.length
  name : SameSymbol S v.name G v'.name
  descriptor : SameSymbol S v.descriptor G v'.descriptor
  slot : v'.slot = v.slot

inductive VerificationType.Copied : VerificationType → VerificationType → Prop
  | top : Copied .top .top
  | integer : Copied .integer .integer
  | float : Copied .float .float
  | double : Copied .double .double
  | long : Copied .long .long
  | null : Copied .null .null
  | uninitializedThis : Copied .uninitializedThis .uninitializedThis
  | object {i j} : SameSymbol S i G j → Copied (.object i) (.object j)
  | uninitialized {o o'} :
      moveOffset moved o = .ok o' → Copied (.uninitialized o) (.uninitialized o')

/-- The form and the types of a frame. -/
inductive Frame.Copied : Frame → Frame → Prop
  | same {d d'} : Copied (.same d) (.same d')
  | sameExtended {d d'} : Copied (.sameExtended d) (.sameExtended d')
  | oneItem {d d' t t'} : t.Copied S G moved t' → Copied (.oneItem d t) (.oneItem d' t')
  | oneItemExtended {d d' t t'} :
      t.Copied S G moved t' → Copied (.oneItemExtended d t) (.oneItemExtended d' t')
  | chop {d d' count} : Copied (.chop d count) (.chop d' count)
  | append {d d' ts ts'} : List.Forall₂ (VerificationType.Copied S G moved) ts ts' →
      Copied (.append d ts) (.append d' ts')
  | full {d d' ts ts' us us'} : List.Forall₂ (VerificationType.Copied S G moved) ts ts' →
      List.Forall₂ (VerificationType.Copied S G moved) us us' →
      Copied (.full d ts us) (.full d' ts' us')

/-- The difference by which a frame at `offset` follows the one at `previous`. -/
def Frame.deltaAfter (previous : Option UInt16) (offset : UInt16) : UInt16 :=
  match previous with
  | none => offset
  | some p => offset - p - 1

/-- Frames, given with their old offsets, behind a frame at the new offset `previous`. -/
inductive Frame.CopiedAfter : Option UInt16 → List (Frame × Nat) → List Frame → Prop
  | nil {previous} : CopiedAfter previous [] []
  | cons {previous frame offset rest frame' offset' rest'} :
      moveOffset moved (UInt16.ofNat offset) = .ok offset' →
      frame'.delta = deltaAfter previous offset' → Frame.Copied S G moved frame frame' →
      CopiedAfter (some offset') rest rest' →
      CopiedAfter previous ((frame, offset) :: rest) (frame' :: rest')

end Tables

/-! ## Annotations -/

mutual

inductive ElementValue.Copied : ElementValue → ElementValue → Prop
  | const {tag i j} : SameSymbol S i G j → ElementValue.Copied (.const tag i) (.const tag j)
  | enum {i j k l} : SameSymbol S i G j → SameSymbol S k G l →
      ElementValue.Copied (.enum i k) (.enum j l)
  | classInfo {i j} : SameSymbol S i G j → ElementValue.Copied (.classInfo i) (.classInfo j)
  | nested {a a'} : AnnotationInfo.Copied a a' → ElementValue.Copied (.nested a) (.nested a')
  | array {vs vs'} : List.Forall₂ ElementValue.Copied vs vs' →
      ElementValue.Copied (.array vs) (.array vs')

inductive AnnotationInfo.Copied : AnnotationInfo → AnnotationInfo → Prop
  | mk {i j es es'} : SameSymbol S i G j → List.Forall₂ Element.Copied es es' →
      AnnotationInfo.Copied ⟨i, es⟩ ⟨j, es'⟩

inductive Element.Copied : Element → Element → Prop
  | mk {i j v v'} : SameSymbol S i G j → ElementValue.Copied v v' → Element.Copied ⟨i, v⟩ ⟨j, v'⟩

end

/-! ## Attributes -/

structure InnerClass.Copied (c c' : InnerClass) : Prop where
  inner : SameSymbol S c.inner G c'.inner
  outer : SameOptional S c.outer G c'.outer
  name : SameOptional S c.name G c'.name
  access : c'.access = c.access

structure Parameter.Copied (p p' : Parameter) : Prop where
  name : SameOptional S p.name G p'.name
  access : p'.access = p.access

/-- The attributes that are left out of a copy. -/
def Attribute.IsLeftOut (a : Attribute) : Prop :=
  (∃ methods, a.payload = .bootstrapMethods methods) ∨ ∃ bytes, a.payload = .raw bytes

/-- The attributes that are copied. -/
def Attribute.isKept (a : Attribute) : Bool :=
  match a.payload with
  | .bootstrapMethods _ | .raw _ => false
  | _ => true

theorem Attribute.isKept_iff {a : Attribute} : a.isKept = true ↔ ¬a.IsLeftOut := by
  obtain ⟨name, payload⟩ := a
  cases payload <;> simp [isKept, IsLeftOut]

mutual

inductive Attribute.Copied : Option OffsetMap → Attribute → Attribute → Prop
  | mk {moved i j p p'} : SameSymbol S i G j → Payload.Copied moved p p' →
      Attribute.Copied moved ⟨i, p⟩ ⟨j, p'⟩

inductive Payload.Copied : Option OffsetMap → Payload → Payload → Prop
  | code {moved b b'} : CodeBody.Copied b b' → Payload.Copied moved (.code b) (.code b')
  | constantValue {moved i j} : SameSymbol S i G j →
      Payload.Copied moved (.constantValue i) (.constantValue j)
  | exceptions {moved is js} : List.Forall₂ (SameSymbol S · G ·) is js →
      Payload.Copied moved (.exceptions is) (.exceptions js)
  | sourceFile {moved i j} : SameSymbol S i G j →
      Payload.Copied moved (.sourceFile i) (.sourceFile j)
  | signature {moved i j} : SameSymbol S i G j →
      Payload.Copied moved (.signature i) (.signature j)
  | lineNumberTable {moved ls ls'} : List.Forall₂ (LineNumber.Copied moved) ls ls' →
      Payload.Copied moved (.lineNumberTable ls) (.lineNumberTable ls')
  | localVariableTable {moved vs vs'} : List.Forall₂ (LocalVariable.Copied S G moved) vs vs' →
      Payload.Copied moved (.localVariableTable vs) (.localVariableTable vs')
  | localVariableTypeTable {moved vs vs'} : List.Forall₂ (LocalVariable.Copied S G moved) vs vs' →
      Payload.Copied moved (.localVariableTypeTable vs) (.localVariableTypeTable vs')
  | stackMapTable {moved fs fs'} :
      Frame.CopiedAfter S G moved none (fs.zip (Frame.offsets fs)) fs' →
      Payload.Copied moved (.stackMapTable fs) (.stackMapTable fs')
  | innerClasses {moved cs cs'} : List.Forall₂ (InnerClass.Copied S G) cs cs' →
      Payload.Copied moved (.innerClasses cs) (.innerClasses cs')
  | enclosingMethod {moved i j k l} : SameSymbol S i G j → SameOptional S k G l →
      Payload.Copied moved (.enclosingMethod i k) (.enclosingMethod j l)
  | nestHost {moved i j} : SameSymbol S i G j → Payload.Copied moved (.nestHost i) (.nestHost j)
  | nestMembers {moved is js} : List.Forall₂ (SameSymbol S · G ·) is js →
      Payload.Copied moved (.nestMembers is) (.nestMembers js)
  | permittedSubclasses {moved is js} : List.Forall₂ (SameSymbol S · G ·) is js →
      Payload.Copied moved (.permittedSubclasses is) (.permittedSubclasses js)
  | methodParameters {moved ps ps'} : List.Forall₂ (Parameter.Copied S G) ps ps' →
      Payload.Copied moved (.methodParameters ps) (.methodParameters ps')
  | deprecated {moved} : Payload.Copied moved .deprecated .deprecated
  | synthetic {moved} : Payload.Copied moved .synthetic .synthetic
  | visibleAnnotations {moved as as'} : List.Forall₂ (AnnotationInfo.Copied S G) as as' →
      Payload.Copied moved (.visibleAnnotations as) (.visibleAnnotations as')
  | invisibleAnnotations {moved as as'} : List.Forall₂ (AnnotationInfo.Copied S G) as as' →
      Payload.Copied moved (.invisibleAnnotations as) (.invisibleAnnotations as')
  | visibleParameterAnnotations {moved ps ps'} :
      List.Forall₂ (List.Forall₂ (AnnotationInfo.Copied S G)) ps ps' →
      Payload.Copied moved (.visibleParameterAnnotations ps) (.visibleParameterAnnotations ps')
  | invisibleParameterAnnotations {moved ps ps'} :
      List.Forall₂ (List.Forall₂ (AnnotationInfo.Copied S G)) ps ps' →
      Payload.Copied moved (.invisibleParameterAnnotations ps) (.invisibleParameterAnnotations ps')
  | annotationDefault {moved v v'} : ElementValue.Copied S G v v' →
      Payload.Copied moved (.annotationDefault v) (.annotationDefault v')
  | record {moved cs cs'} : List.Forall₂ Component.Copied cs cs' →
      Payload.Copied moved (.record cs) (.record cs')
  | sourceDebugExtension {moved bytes} :
      Payload.Copied moved (.sourceDebugExtension bytes) (.sourceDebugExtension bytes)

/-- The attributes of code follow the code: its instructions are mapped by their order. -/
inductive CodeBody.Copied : CodeBody → CodeBody → Prop
  | mk {maxStack maxLocals code code' handlers handlers' inner inner'} :
      List.Forall₂ (Instruction.Copied S G ⟨Code.indexByOffset code, Code.offsets code'⟩)
        code code' →
      List.Forall₂ (Handler.Copied S G ⟨Code.indexByOffset code, Code.offsets code'⟩)
        handlers handlers' →
      Attribute.AllCopied (some ⟨Code.indexByOffset code, Code.offsets code'⟩) inner inner' →
      CodeBody.Copied ⟨maxStack, maxLocals, code, handlers, inner⟩
        ⟨maxStack, maxLocals, code', handlers', inner'⟩

inductive Component.Copied : Component → Component → Prop
  | mk {i j k l inner inner'} : SameSymbol S i G j → SameSymbol S k G l →
      Attribute.AllCopied none inner inner' → Component.Copied ⟨i, k, inner⟩ ⟨j, l, inner'⟩

/-- A list of attributes, in order, without those that are left out. -/
inductive Attribute.AllCopied : Option OffsetMap → List Attribute → List Attribute → Prop
  | nil {moved} : Attribute.AllCopied moved [] []
  | leftOut {moved a as as'} : a.IsLeftOut → Attribute.AllCopied moved as as' →
      Attribute.AllCopied moved (a :: as) as'
  | copied {moved a a' as as'} : Attribute.Copied moved a a' → Attribute.AllCopied moved as as' →
      Attribute.AllCopied moved (a :: as) (a' :: as')

end

/-- A field or method but for its flags. -/
structure Member.Copied (m m' : Member) : Prop where
  name : SameSymbol S m.name G m'.name
  descriptor : SameSymbol S m.descriptor G m'.descriptor
  attributes : Attribute.AllCopied S G none m.attributes m'.attributes

variable {S G}

/-- What is kept is copied, one attribute after the other. -/
theorem Attribute.AllCopied.forall₂ {moved : Option OffsetMap}
    {as as' : List Attribute} (h : Attribute.AllCopied S G moved as as') :
    List.Forall₂ (Attribute.Copied S G moved) (as.filter isKept) as' := by
  induction as generalizing as' with
  | nil =>
    cases h
    exact .nil
  | cons a as ih =>
    cases h with
    | leftOut hout h =>
      rw [List.filter_cons_of_neg (by rwa [isKept_iff, not_not])]
      exact ih h
    | copied ha h =>
      have hkept : a.isKept = true := by
        obtain ⟨-, hp⟩ := ha
        cases hp <;> rfl
      rw [List.filter_cons_of_pos hkept]
      exact .cons ha (ih h)

end JvmClass
