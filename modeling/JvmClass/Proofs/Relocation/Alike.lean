import JvmClass.Proofs.Relocation.Copied

/-!
# The same, numbered otherwise

`Alike S S' a b` says that `a`, whose indices are those of `S`, and `b`, whose indices are those of
`S'`, cannot be told apart but by their numbers: indices stand for the same, an index is zero where
the other is, and offsets, forms and order are the same. Attributes that are left out of a copy are
not looked at, wherever they stand. Nothing is said about entries that nothing refers to.
-/

namespace JvmClass

variable (S S' : ImportSource)

/-! ## Code -/

inductive Instruction.Alike : Instruction → Instruction → Prop
  | constant {o i j} : Corresponds S i S' j → Alike (.constant o i) (.constant o j)
  | field {o i j} : Corresponds S i S' j → Alike (.field o i) (.field o j)
  | invoke {o i j} : Corresponds S i S' j → Alike (.invoke o i) (.invoke o j)
  | invokeInterface {i j count} :
      Corresponds S i S' j → Alike (.invokeInterface i count) (.invokeInterface j count)
  | invokeDynamic {i j} : Corresponds S i S' j → Alike (.invokeDynamic i) (.invokeDynamic j)
  | typed {o i j} : Corresponds S i S' j → Alike (.typed o i) (.typed o j)
  | multiNewArray {i j dimensions} :
      Corresponds S i S' j → Alike (.multiNewArray i dimensions) (.multiNewArray j dimensions)
  | plain {i} : i.poolIndex? = none → Alike i i

inductive Handler.Alike : Handler → Handler → Prop
  | mk {start stop handler i j} :
      CorrespondsOptional S i S' j → Alike ⟨start, stop, handler, i⟩ ⟨start, stop, handler, j⟩

inductive LocalVariable.Alike : LocalVariable → LocalVariable → Prop
  | mk {start length i j k l slot} : Corresponds S i S' j → Corresponds S k S' l →
      Alike ⟨start, length, i, k, slot⟩ ⟨start, length, j, l, slot⟩

inductive VerificationType.Alike : VerificationType → VerificationType → Prop
  | object {i j} : Corresponds S i S' j → Alike (.object i) (.object j)
  | plain {t} : (∀ i, t ≠ .object i) → Alike t t

inductive Frame.Alike : Frame → Frame → Prop
  | same {d} : Alike (.same d) (.same d)
  | sameExtended {d} : Alike (.sameExtended d) (.sameExtended d)
  | oneItem {d t t'} : t.Alike S S' t' → Alike (.oneItem d t) (.oneItem d t')
  | oneItemExtended {d t t'} : t.Alike S S' t' →
    Alike (.oneItemExtended d t) (.oneItemExtended d t')
  | chop {d count} : Alike (.chop d count) (.chop d count)
  | append {d ts ts'} : List.Forall₂ (VerificationType.Alike S S') ts ts' →
      Alike (.append d ts) (.append d ts')
  | full {d ts ts' us us'} : List.Forall₂ (VerificationType.Alike S S') ts ts' →
      List.Forall₂ (VerificationType.Alike S S') us us' → Alike (.full d ts us) (.full d ts' us')

/-! ## Annotations -/

mutual

inductive ElementValue.Alike : ElementValue → ElementValue → Prop
  | const {tag i j} : Corresponds S i S' j → ElementValue.Alike (.const tag i) (.const tag j)
  | enum {i j k l} : Corresponds S i S' j → Corresponds S k S' l →
    ElementValue.Alike (.enum i k) (.enum j l)
  | classInfo {i j} : Corresponds S i S' j → ElementValue.Alike (.classInfo i) (.classInfo j)
  | nested {a a'} : AnnotationInfo.Alike a a' → ElementValue.Alike (.nested a) (.nested a')
  | array {vs vs'} : List.Forall₂ ElementValue.Alike vs vs' →
      ElementValue.Alike (.array vs) (.array vs')

inductive AnnotationInfo.Alike : AnnotationInfo → AnnotationInfo → Prop
  | mk {i j es es'} : Corresponds S i S' j → List.Forall₂ Element.Alike es es' →
      AnnotationInfo.Alike ⟨i, es⟩ ⟨j, es'⟩

inductive Element.Alike : Element → Element → Prop
  | mk {i j v v'} : Corresponds S i S' j → ElementValue.Alike v v' → Element.Alike ⟨i, v⟩ ⟨j, v'⟩

end

/-! ## Attributes -/

inductive InnerClass.Alike : InnerClass → InnerClass → Prop
  | mk {i j k l m n access} : Corresponds S i S' j → CorrespondsOptional S k S' l →
    CorrespondsOptional S m S' n → Alike ⟨i, k, m, access⟩ ⟨j, l, n, access⟩

inductive Parameter.Alike : Parameter → Parameter → Prop
  | mk {i j access} : CorrespondsOptional S i S' j → Alike ⟨i, access⟩ ⟨j, access⟩

mutual

inductive Attribute.Alike : Attribute → Attribute → Prop
  | mk {i j p p'} : Corresponds S i S' j → Payload.Alike p p' → Attribute.Alike ⟨i, p⟩ ⟨j, p'⟩

inductive Payload.Alike : Payload → Payload → Prop
  | code {b b'} : CodeBody.Alike b b' → Payload.Alike (.code b) (.code b')
  | constantValue {i j} : Corresponds S i S' j → Payload.Alike (.constantValue i) (.constantValue j)
  | exceptions {is js} : List.Forall₂ (Corresponds S · S' ·) is js →
      Payload.Alike (.exceptions is) (.exceptions js)
  | sourceFile {i j} : Corresponds S i S' j → Payload.Alike (.sourceFile i) (.sourceFile j)
  | signature {i j} : Corresponds S i S' j → Payload.Alike (.signature i) (.signature j)
  | lineNumberTable {ls} : Payload.Alike (.lineNumberTable ls) (.lineNumberTable ls)
  | localVariableTable {vs vs'} : List.Forall₂ (LocalVariable.Alike S S') vs vs' →
      Payload.Alike (.localVariableTable vs) (.localVariableTable vs')
  | localVariableTypeTable {vs vs'} : List.Forall₂ (LocalVariable.Alike S S') vs vs' →
      Payload.Alike (.localVariableTypeTable vs) (.localVariableTypeTable vs')
  | stackMapTable {fs fs'} : List.Forall₂ (Frame.Alike S S') fs fs' →
      Payload.Alike (.stackMapTable fs) (.stackMapTable fs')
  | innerClasses {cs cs'} : List.Forall₂ (InnerClass.Alike S S') cs cs' →
      Payload.Alike (.innerClasses cs) (.innerClasses cs')
  | enclosingMethod {i j k l} : Corresponds S i S' j → CorrespondsOptional S k S' l →
      Payload.Alike (.enclosingMethod i k) (.enclosingMethod j l)
  | nestHost {i j} : Corresponds S i S' j → Payload.Alike (.nestHost i) (.nestHost j)
  | nestMembers {is js} : List.Forall₂ (Corresponds S · S' ·) is js →
      Payload.Alike (.nestMembers is) (.nestMembers js)
  | permittedSubclasses {is js} : List.Forall₂ (Corresponds S · S' ·) is js →
      Payload.Alike (.permittedSubclasses is) (.permittedSubclasses js)
  | methodParameters {ps ps'} : List.Forall₂ (Parameter.Alike S S') ps ps' →
      Payload.Alike (.methodParameters ps) (.methodParameters ps')
  | deprecated : Payload.Alike .deprecated .deprecated
  | synthetic : Payload.Alike .synthetic .synthetic
  | visibleAnnotations {as as'} : List.Forall₂ (AnnotationInfo.Alike S S') as as' →
      Payload.Alike (.visibleAnnotations as) (.visibleAnnotations as')
  | invisibleAnnotations {as as'} : List.Forall₂ (AnnotationInfo.Alike S S') as as' →
      Payload.Alike (.invisibleAnnotations as) (.invisibleAnnotations as')
  | visibleParameterAnnotations {ps ps'} :
      List.Forall₂ (List.Forall₂ (AnnotationInfo.Alike S S')) ps ps' →
      Payload.Alike (.visibleParameterAnnotations ps) (.visibleParameterAnnotations ps')
  | invisibleParameterAnnotations {ps ps'} :
      List.Forall₂ (List.Forall₂ (AnnotationInfo.Alike S S')) ps ps' →
      Payload.Alike (.invisibleParameterAnnotations ps) (.invisibleParameterAnnotations ps')
  | annotationDefault {v v'} : ElementValue.Alike S S' v v' →
      Payload.Alike (.annotationDefault v) (.annotationDefault v')
  | record {cs cs'} : List.Forall₂ Component.Alike cs cs' → Payload.Alike (.record cs) (.record cs')
  | sourceDebugExtension {bytes} :
      Payload.Alike (.sourceDebugExtension bytes) (.sourceDebugExtension bytes)

inductive CodeBody.Alike : CodeBody → CodeBody → Prop
  | mk {maxStack maxLocals code code' handlers handlers' inner inner'} :
      List.Forall₂ (Instruction.Alike S S') code code' →
      List.Forall₂ (Handler.Alike S S') handlers handlers' →
      List.Forall₂ Attribute.Alike (inner.filter Attribute.isKept)
        (inner'.filter Attribute.isKept) →
      CodeBody.Alike ⟨maxStack, maxLocals, code, handlers, inner⟩
        ⟨maxStack, maxLocals, code', handlers', inner'⟩

inductive Component.Alike : Component → Component → Prop
  | mk {i j k l inner inner'} : Corresponds S i S' j → Corresponds S k S' l →
      List.Forall₂ Attribute.Alike (inner.filter Attribute.isKept)
        (inner'.filter Attribute.isKept) →
      Component.Alike ⟨i, k, inner⟩ ⟨j, l, inner'⟩

end

/-- Lists of attributes, without those that are left out of a copy. -/
def Attribute.AllAlike (as as' : List Attribute) : Prop :=
  List.Forall₂ (Attribute.Alike S S') (as.filter isKept) (as'.filter isKept)

structure Member.Alike (m m' : Member) : Prop where
  access : m'.access = m.access
  name : Corresponds S m.name S' m'.name
  descriptor : Corresponds S m.descriptor S' m'.descriptor
  attributes : Attribute.AllAlike S S' m.attributes m'.attributes

/-! ## Everything is like itself -/

section Refl

variable {S}

theorem Corresponds.refl (i : UInt16) : Corresponds S i S i := fun _ => Iff.rfl

theorem CorrespondsOptional.refl (i : UInt16) : CorrespondsOptional S i S i := ⟨Iff.rfl, .refl i⟩

theorem forall₂_corresponds (is : List UInt16) : List.Forall₂ (Corresponds S · S ·) is is :=
  List.forall₂_same.2 fun i _ => .refl i

theorem Instruction.Alike.refl (i : Instruction) : i.Alike S S i := by
  cases i with
  | constant => exact .constant (.refl _)
  | field => exact .field (.refl _)
  | invoke => exact .invoke (.refl _)
  | invokeInterface => exact .invokeInterface (.refl _)
  | invokeDynamic => exact .invokeDynamic (.refl _)
  | typed => exact .typed (.refl _)
  | multiNewArray => exact .multiNewArray (.refl _)
  | _ => exact .plain rfl

theorem Handler.Alike.refl (h : Handler) : h.Alike S S h := .mk (.refl _)

theorem LocalVariable.Alike.refl (v : LocalVariable) : v.Alike S S v := .mk (.refl _) (.refl _)

theorem VerificationType.Alike.refl (t : VerificationType) : t.Alike S S t := by
  cases t with
  | object => exact .object (.refl _)
  | _ => exact .plain nofun

theorem Frame.Alike.refl (f : Frame) : f.Alike S S f := by
  have types (ts : List VerificationType) : List.Forall₂ (VerificationType.Alike S S) ts ts :=
    List.forall₂_same.2 fun t _ => .refl t
  cases f with
  | same => exact .same
  | sameExtended => exact .sameExtended
  | oneItem => exact .oneItem (.refl _)
  | oneItemExtended => exact .oneItemExtended (.refl _)
  | chop => exact .chop
  | append => exact .append (types _)
  | full => exact .full (types _) (types _)

theorem InnerClass.Alike.refl (c : InnerClass) : c.Alike S S c := .mk (.refl _) (.refl _) (.refl _)

theorem Parameter.Alike.refl (p : Parameter) : p.Alike S S p := .mk (.refl _)

mutual

theorem ElementValue.Alike.refl : (v : ElementValue) → v.Alike S S v
  | .const .. => .const (.refl _)
  | .enum .. => .enum (.refl _) (.refl _)
  | .classInfo _ => .classInfo (.refl _)
  | .nested a => .nested (AnnotationInfo.Alike.refl a)
  | .array vs => .array (forall₂_values vs)

theorem AnnotationInfo.Alike.refl : (a : AnnotationInfo) → a.Alike S S a
  | ⟨_, es⟩ => .mk (.refl _) (forall₂_elements es)

theorem forall₂_values : (vs : List ElementValue) → List.Forall₂ (ElementValue.Alike S S) vs vs
  | [] => .nil
  | v :: vs => .cons (ElementValue.Alike.refl v) (forall₂_values vs)

theorem forall₂_elements : (es : List Element) → List.Forall₂ (Element.Alike S S) es es
  | [] => .nil
  | ⟨_, v⟩ :: es => .cons (.mk (.refl _) (ElementValue.Alike.refl v)) (forall₂_elements es)

end

theorem forall₂_annotations (as : List AnnotationInfo) :
    List.Forall₂ (AnnotationInfo.Alike S S) as as :=
  List.forall₂_same.2 fun a _ => .refl a

mutual

theorem Payload.Alike.refl {i : UInt16} : (p : Payload) → (Attribute.mk i p).isKept = true →
    p.Alike S S p
  | .code body, _ => .code (CodeBody.Alike.refl body)
  | .record cs, _ => .record (forall₂_components cs)
  | .constantValue _, _ => .constantValue (.refl _)
  | .exceptions is, _ => .exceptions (forall₂_corresponds is)
  | .sourceFile _, _ => .sourceFile (.refl _)
  | .signature _, _ => .signature (.refl _)
  | .lineNumberTable _, _ => .lineNumberTable
  | .localVariableTable _, _ => .localVariableTable (List.forall₂_same.2 fun v _ => .refl v)
  | .localVariableTypeTable _, _ =>
    .localVariableTypeTable (List.forall₂_same.2 fun v _ => .refl v)
  | .stackMapTable _, _ => .stackMapTable (List.forall₂_same.2 fun f _ => .refl f)
  | .innerClasses _, _ => .innerClasses (List.forall₂_same.2 fun c _ => .refl c)
  | .enclosingMethod .., _ => .enclosingMethod (.refl _) (.refl _)
  | .nestHost _, _ => .nestHost (.refl _)
  | .nestMembers is, _ => .nestMembers (forall₂_corresponds is)
  | .permittedSubclasses is, _ => .permittedSubclasses (forall₂_corresponds is)
  | .methodParameters _, _ => .methodParameters (List.forall₂_same.2 fun p _ => .refl p)
  | .deprecated, _ => .deprecated
  | .synthetic, _ => .synthetic
  | .visibleAnnotations as, _ => .visibleAnnotations (forall₂_annotations as)
  | .invisibleAnnotations as, _ => .invisibleAnnotations (forall₂_annotations as)
  | .visibleParameterAnnotations _, _ =>
    .visibleParameterAnnotations (List.forall₂_same.2 fun as _ => forall₂_annotations as)
  | .invisibleParameterAnnotations _, _ =>
    .invisibleParameterAnnotations (List.forall₂_same.2 fun as _ => forall₂_annotations as)
  | .annotationDefault v, _ => .annotationDefault (.refl v)
  | .sourceDebugExtension _, _ => .sourceDebugExtension

theorem CodeBody.Alike.refl : (body : CodeBody) → body.Alike S S body
  | ⟨_, _, _, _, inner⟩ =>
    .mk (List.forall₂_same.2 fun i _ => .refl i) (List.forall₂_same.2 fun h _ => .refl h)
      (Attribute.AllAlike.refl inner)

theorem Attribute.AllAlike.refl : (as : List Attribute) → Attribute.AllAlike S S as as
  | [] => .nil
  | ⟨i, p⟩ :: as => by
    have hrest : Attribute.AllAlike S S as as := Attribute.AllAlike.refl as
    unfold Attribute.AllAlike at hrest ⊢
    by_cases hp : (Attribute.mk i p).isKept = true
    · rw [List.filter_cons_of_pos hp]
      exact .cons (.mk (.refl i) (Payload.Alike.refl p hp)) hrest
    · rwa [List.filter_cons_of_neg hp]

theorem forall₂_components : (cs : List Component) → List.Forall₂ (Component.Alike S S) cs cs
  | [] => .nil
  | ⟨_, _, inner⟩ :: cs =>
    .cons (.mk (.refl _) (.refl _) (Attribute.AllAlike.refl inner)) (forall₂_components cs)

end

end Refl

end JvmClass
