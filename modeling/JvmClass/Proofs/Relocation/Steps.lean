import JvmClass.Proofs.Failures
import JvmClass.Proofs.Pool.Coverage
import JvmClass.Proofs.Relocation.Attributes

/-!
# What a relocation is made of

A relocation asks for entries of its source, records what it leaves out, and gives up where code
cannot be laid out anew. It does nothing else to the pool it builds. So a property of builds that
single steps have, and that is kept by doing one build after another, holds of every relocation
(`Steps`).
-/

namespace JvmClass

open Relocation

/-! ## Failures -/

/-- If this fails, it is not for want of room in a pool. -/
abbrev HasRoom {α : Type} (x : Except Error α) : Prop := FailsAs (fun e => e.isFull = false) x

theorem HasRoom.of_lookup {α : Type} {x : Except Error α} (h : LooksUp x) : HasRoom x := by
  refine h.imp fun e he => ?_
  cases e <;> first | rfl | cases he

section HasRoom

theorem hasRoom_find (m : OffsetMap) (offset : UInt16) : HasRoom (m.find offset) := by
  unfold OffsetMap.find
  split
  · exact failsAs_ok _
  · exact failsAs_error rfl

theorem hasRoom_findRange (m : OffsetMap) (start length : UInt16) :
    HasRoom (m.findRange start length) :=
  (hasRoom_find m _).bind fun _ => (hasRoom_find m _).bind fun _ => failsAs_ok _

theorem hasRoom_moveOffset (moved : Option OffsetMap) (offset : UInt16) :
    HasRoom (moveOffset moved offset) := by
  cases moved with
  | none => exact failsAs_ok _
  | some m => exact hasRoom_find m offset

theorem hasRoom_encodeOperands (offset : Nat) (i : Instruction) :
    HasRoom (i.encodeOperands offset) := by
  have hnarrow (value : UInt16) : HasRoom (Instruction.narrow offset value) :=
    failsAs_ite (failsAs_ok _) (failsAs_error rfl)
  have hsigned (fault : CodeFault) (value : Int16) :
      HasRoom (Instruction.narrowSigned offset fault value) :=
    failsAs_ite (failsAs_ok _) (failsAs_error rfl)
  cases i with
  | access =>
    exact failsAs_ite (failsAs_ok _) (failsAs_ite (failsAs_ok _) (hnarrow _))
  | increment =>
    exact failsAs_ite (failsAs_ok _)
      ((hnarrow _).bind fun _ => (hsigned _ _).bind fun _ => failsAs_ok _)
  | push => exact failsAs_ite (hsigned _ _) (failsAs_ok _)
  | constant => exact failsAs_ite (hnarrow _) (failsAs_ok _)
  | branch =>
    exact failsAs_ite (failsAs_ok _) (failsAs_ite (failsAs_ok _) (failsAs_error rfl))
  | _ => exact failsAs_ok _

theorem hasRoom_assemble {resolve : UInt32 → Except Error Nat} (hr : ∀ t, HasRoom (resolve t))
    (code : List Instruction) : HasRoom (Code.assemble code resolve) :=
  failsAs_assemble (fun _ => rfl) (fun _ _ => rfl) hr fun _ _ _ _ _ _ =>
    (hasRoom_encodeOperands _ _).bind fun _ => failsAs_ok _

theorem hasRoom_resolveOffset (indices : Std.HashMap Nat Nat) (target : UInt32) :
    HasRoom (Code.resolveOffset indices target) := by
  unfold Code.resolveOffset
  split
  · exact failsAs_ok _
  · exact failsAs_error rfl

end HasRoom

/-! ## Relocations -/

/-- The property `K` of builds holds of the single steps of a relocation from `S`, and of one build
after another if it holds of both. -/
structure Steps (S : ImportSource) (K : (α : Type) → Build α → Prop) : Prop where
  pure : ∀ {α : Type} (a : α), K α (pure a)
  bind : ∀ {α β : Type} {x : Build α} {f : α → Build β}, K α x → (∀ a, K β (f a)) → K β (x >>= f)
  throw : ∀ {α : Type} {e : Error}, e.isFull = false → K α (throw e)
  record : ∀ e, K Unit (Build.record e)
  index : ∀ i, K UInt16 (index S i)

namespace Steps

variable {S : ImportSource} {K : (α : Type) → Build α → Prop} (h : Steps S K)

include h

theorem ofExcept {α : Type} {x : Except Error α} (hx : HasRoom x) : K α (ofExcept x) := by
  cases x with
  | ok a => exact h.pure a
  | error e => exact h.throw (hx e rfl)

theorem map {α β : Type} {x : Build α} (hx : K α x) (f : α → β) : K β (do return f (← x)) :=
  h.bind hx fun _ => h.pure _

theorem mapM {α β : Type} {f : α → Build β} {as : List α} (hf : ∀ a ∈ as, K β (f a)) :
    K (List β) (as.mapM f) := by
  induction as with
  | nil => exact h.pure []
  | cons a as ih =>
    obtain ⟨hfirst, hrest⟩ := List.forall_mem_cons.1 hf
    rw [List.mapM_cons]
    exact h.bind hfirst fun _ => h.bind (ih hrest) fun _ => h.pure _

theorem pair {β : Type} (i j : UInt16) (f : UInt16 → UInt16 → β) :
    K β (do return f (← Relocation.index S i) (← Relocation.index S j)) :=
  h.bind (h.index i) fun x => h.map (h.index j) (f x)

theorem optional (i : UInt16) : K UInt16 (optional S i) := by
  unfold Relocation.optional Grow.importOptional
  split
  · exact h.pure 0
  · exact h.index i

theorem indices (is : List UInt16) : K (List UInt16) (is.mapM (Relocation.index S)) :=
  h.mapM fun i _ => h.index i

mutual

theorem value : (v : ElementValue) → K ElementValue (value S v)
  | .const tag i => h.map (h.index i) (ElementValue.const tag)
  | .enum type constant => h.pair type constant ElementValue.enum
  | .classInfo i => h.map (h.index i) ElementValue.classInfo
  | .nested content => h.map (annotated content) ElementValue.nested
  | .array vs => by
    rw [value_array]
    exact h.map (values vs) ElementValue.array

theorem annotated : (a : AnnotationInfo) → K AnnotationInfo (annotated S a)
  | ⟨type, es⟩ => by
    rw [annotated_eq]
    refine h.bind (h.index type) fun type' => ?_
    exact h.map (elements es) (AnnotationInfo.mk type')

theorem values : (vs : List ElementValue) → K (List ElementValue) (vs.mapM (Relocation.value S))
  | [] => h.pure []
  | v :: vs => by
    rw [List.mapM_cons]
    refine h.bind (value v) fun v' => ?_
    exact h.map (values vs) (v' :: ·)

theorem elements : (es : List Element) → K (List Element) (es.mapM (element S))
  | [] => h.pure []
  | ⟨name, v⟩ :: es => by
    have helement : K Element (element S ⟨name, v⟩) :=
      h.bind (h.index name) fun name' => h.map (value v) (Element.mk name')
    rw [List.mapM_cons]
    refine h.bind helement fun e => ?_
    exact h.map (elements es) (e :: ·)

end

theorem annotations (items : List AnnotationInfo) :
    K (List AnnotationInfo) (annotations S items) :=
  h.mapM fun a _ => h.annotated a

theorem instruction (i : Instruction) : K Instruction (instruction S i) := by
  cases i with
  | constant | field | invoke | invokeInterface | invokeDynamic | typed | multiNewArray =>
    exact h.bind (h.index _) fun _ => h.pure _
  | _ => exact h.pure _

theorem instructions (code : List Instruction) :
    K (List Instruction × OffsetMap) (instructions S code) := by
  refine h.bind (h.mapM fun i _ => h.instruction i) fun code' => ?_
  have hplaced := hasRoom_assemble (hasRoom_resolveOffset (Code.indexByOffset code)) code'
  exact h.bind (h.ofExcept hplaced) fun _ => h.pure _

theorem handler (m : OffsetMap) (x : Handler) : K Handler (handler S m x) := by
  refine h.bind (h.ofExcept (hasRoom_find m _)) fun start => ?_
  refine h.bind (h.ofExcept (hasRoom_find m _)) fun stop => ?_
  refine h.bind (h.ofExcept (hasRoom_find m _)) fun target => ?_
  exact h.map (h.optional _) (Handler.mk start stop target)

theorem localVariable (moved : Option OffsetMap) (v : LocalVariable) :
    K LocalVariable (localVariable S moved v) := by
  have hrest (start length : UInt16) : K LocalVariable (do
      return ⟨start, length, ← Relocation.index S v.name, ← Relocation.index S v.descriptor,
        v.slot⟩) :=
    h.pair v.name v.descriptor (LocalVariable.mk start length · · v.slot)
  cases moved with
  | none => exact h.bind (h.pure (v.start, v.length)) fun _ => hrest _ _
  | some m => exact h.bind (h.ofExcept (hasRoom_findRange m _ _)) fun _ => hrest _ _

theorem verificationType (moved : Option OffsetMap) (t : VerificationType) :
    K VerificationType (verificationType S moved t) := by
  cases t with
  | object i => exact h.map (h.index i) VerificationType.object
  | uninitialized offset =>
    exact h.map (h.ofExcept (hasRoom_moveOffset moved offset)) VerificationType.uninitialized
  | _ => exact h.pure _

theorem frame (moved : Option OffsetMap) (f : Frame) :
    K Frame (f.mapTypes (Relocation.verificationType S moved)) := by
  have htypes (ts : List VerificationType) :=
    h.mapM fun t (_ : t ∈ ts) => h.verificationType moved t
  cases f with
  | oneItem | oneItemExtended => exact h.bind (h.verificationType moved _) fun _ => h.pure _
  | append => exact h.bind (htypes _) fun _ => h.pure _
  | full => exact h.bind (htypes _) fun _ => h.bind (htypes _) fun _ => h.pure _
  | _ => exact h.pure _

theorem frames (moved : Option OffsetMap) (table : List Frame) :
    K (List Frame) (frames S moved table) := by
  rw [frames_eq]
  have hfrom (previous : Option UInt16) (items : List (Frame × Nat)) :
      K (List Frame) (framesFrom S moved previous items) := by
    induction items generalizing previous with
    | nil => exact h.pure []
    | cons item rest ih =>
      refine h.bind (h.ofExcept (hasRoom_moveOffset moved _)) fun offset' => ?_
      refine h.bind (h.frame moved _) fun frame' => ?_
      exact h.map (ih _) (frame' :: ·)
  exact hfrom none _

theorem lineNumber (moved : Option OffsetMap) (l : LineNumber) :
    K LineNumber (do return ⟨← MonadExcept.ofExcept (moveOffset moved l.start), l.line⟩) :=
  h.map (h.ofExcept (hasRoom_moveOffset moved l.start)) (LineNumber.mk · l.line)

theorem innerClass (c : InnerClass) : K InnerClass (innerClass S c) := by
  refine h.bind (h.index _) fun inner => ?_
  refine h.bind (h.optional _) fun outer => ?_
  exact h.bind (h.optional _) fun _ => h.pure _

theorem parameter (p : Parameter) : K Parameter (parameter S p) :=
  h.map (h.optional p.name) (Parameter.mk · p.access)

mutual

theorem attribute? (moved : Option OffsetMap) : (a : Attribute) →
    K (Option Attribute) (attribute? S moved a)
  | ⟨name, p⟩ => by
    have hkept : K (Option Attribute) (do
        let name ← Relocation.index S name
        return some ⟨name, ← Relocation.payload S moved p⟩) :=
      h.bind (h.index name) fun name' => h.map (payload moved p) fun p' =>
        some (Attribute.mk name' p')
    cases p with
    | bootstrapMethods => exact h.pure none
    | raw bytes => exact h.bind (h.record _) fun _ => h.pure none
    | _ => exact hkept

theorem payload (moved : Option OffsetMap) : (p : Payload) → K Payload (payload S moved p)
  | .code body => h.map (codeBody body) Payload.code
  | .constantValue i => h.map (h.index i) Payload.constantValue
  | .exceptions classes => h.map (h.indices classes) Payload.exceptions
  | .sourceFile i => h.map (h.index i) Payload.sourceFile
  | .signature i => h.map (h.index i) Payload.signature
  | .lineNumberTable lines => h.map (h.mapM fun l _ => h.lineNumber moved l) Payload.lineNumberTable
  | .localVariableTable locals =>
    h.map (h.mapM fun v _ => h.localVariable moved v) Payload.localVariableTable
  | .localVariableTypeTable locals =>
    h.map (h.mapM fun v _ => h.localVariable moved v) Payload.localVariableTypeTable
  | .stackMapTable table => h.map (h.frames moved table) Payload.stackMapTable
  | .innerClasses classes => h.map (h.mapM fun c _ => h.innerClass c) Payload.innerClasses
  | .enclosingMethod owner method =>
    h.bind (h.index owner) fun owner' => h.map (h.optional method) (Payload.enclosingMethod owner')
  | .bootstrapMethods methods => h.pure _
  | .nestHost i => h.map (h.index i) Payload.nestHost
  | .nestMembers classes => h.map (h.indices classes) Payload.nestMembers
  | .permittedSubclasses classes => h.map (h.indices classes) Payload.permittedSubclasses
  | .methodParameters parameters =>
    h.map (h.mapM fun p _ => h.parameter p) Payload.methodParameters
  | .deprecated => h.pure _
  | .synthetic => h.pure _
  | .visibleAnnotations items => h.map (h.annotations items) Payload.visibleAnnotations
  | .invisibleAnnotations items => h.map (h.annotations items) Payload.invisibleAnnotations
  | .visibleParameterAnnotations parameters =>
    h.map (h.mapM fun items _ => h.annotations items) Payload.visibleParameterAnnotations
  | .invisibleParameterAnnotations parameters =>
    h.map (h.mapM fun items _ => h.annotations items) Payload.invisibleParameterAnnotations
  | .annotationDefault v => h.map (h.value v) Payload.annotationDefault
  | .record cs => by
    rw [payload_record]
    exact h.map (components cs) Payload.record
  | .sourceDebugExtension bytes => h.pure _
  | .raw bytes => h.pure _

theorem codeBody : (body : CodeBody) → K CodeBody (codeBody S body)
  | ⟨maxStack, maxLocals, code, handlers, inner⟩ => by
    rw [codeBody_eq]
    refine h.bind (h.instructions code) fun placed => ?_
    refine h.bind (h.mapM fun x _ => h.handler placed.2 x) fun handlers' => ?_
    exact h.map (filtered (some placed.2) inner) (CodeBody.mk maxStack maxLocals placed.1 handlers')

theorem filtered (moved : Option OffsetMap) : (as : List Attribute) →
    K (List Attribute) (as.filterMapM (Relocation.attribute? S moved))
  | [] => h.pure []
  | a :: as => by
    rw [List.filterMapM_cons]
    refine h.bind (attribute? moved a) fun r => ?_
    cases r with
    | none => exact filtered moved as
    | some a => exact h.map (filtered moved as) (a :: ·)

theorem components : (cs : List Component) → K (List Component) (cs.mapM (component S))
  | [] => h.pure []
  | ⟨name, descriptor, inner⟩ :: cs => by
    rw [List.mapM_cons]
    refine h.bind ?_ fun c => h.map (components cs) (c :: ·)
    refine h.bind (h.index name) fun name' => ?_
    refine h.bind (h.index descriptor) fun descriptor' => ?_
    exact h.bind (filtered none inner) fun _ => h.pure _

end

theorem attributes (items : List Attribute) : K (List Attribute) (attributes S items) := by
  rw [attributes_eq]
  exact h.filtered none items

end Steps

end JvmClass
