import JvmClass.ClassFile.Binary
import JvmClass.Proofs.Codec.Payload

/-!
# Promoted attributes

Copied code may have moved, so that a compact frame needs its extended form. The frame is kept as
it is and promoted when it is written; what is read back is the promoted attribute.
-/

namespace JvmClass

mutual

/-- The attribute with its frames as they are written, at any depth. -/
def Attribute.promote : Attribute → Attribute
  | ⟨name, payload⟩ => ⟨name, payload.promote⟩

def Payload.promote : Payload → Payload
  | .code body => .code body.promote
  | .stackMapTable frames => .stackMapTable (frames.map Frame.promote)
  | .record components => .record (promoteComponents components)
  | payload => payload

def CodeBody.promote : CodeBody → CodeBody
  | ⟨maxStack, maxLocals, instructions, handlers, attributes⟩ =>
    ⟨maxStack, maxLocals, instructions, handlers, promoteAttributes attributes⟩

def promoteAttributes : List Attribute → List Attribute
  | [] => []
  | a :: rest => a.promote :: promoteAttributes rest

def promoteComponents : List Component → List Component
  | [] => []
  | ⟨name, descriptor, attributes⟩ :: rest =>
    ⟨name, descriptor, promoteAttributes attributes⟩ :: promoteComponents rest

end

@[simp]
theorem length_promoteAttributes (attributes : List Attribute) :
    (promoteAttributes attributes).length = attributes.length := by
  induction attributes with
  | nil => rfl
  | cons a rest ih => rw [promoteAttributes, List.length_cons, ih, List.length_cons]

@[simp]
theorem length_promoteComponents (components : List Component) :
    (promoteComponents components).length = components.length := by
  induction components with
  | nil => rfl
  | cons c rest ih =>
    obtain ⟨name, descriptor, attributes⟩ := c
    rw [promoteComponents, List.length_cons, ih, List.length_cons]

theorem promoteAttributes_append (as bs : List Attribute) :
    promoteAttributes (as ++ bs) = promoteAttributes as ++ promoteAttributes bs := by
  induction as with
  | nil => rfl
  | cons a as ih =>
    rw [List.cons_append, promoteAttributes, promoteAttributes, ih, List.cons_append]

theorem bootstrapMethods?_promote (as : List Attribute) :
    Attribute.bootstrapMethods? (promoteAttributes as) = Attribute.bootstrapMethods? as := by
  induction as with
  | nil => rfl
  | cons a as ih =>
    obtain ⟨name, payload⟩ := a
    rw [promoteAttributes, Attribute.promote]
    unfold Attribute.bootstrapMethods? at ih ⊢
    rw [List.findSome?_cons, List.findSome?_cons, ih]
    cases payload <;> rfl

theorem concatM_promote (frames : List Frame) :
    concatM Frame.encode (frames.map Frame.promote) = concatM Frame.encode frames :=
  concatM_congr (List.forall₂_map_left_iff.2 (List.forall₂_same.2 fun f _ => f.encode_promote))

mutual

theorem Attribute.encode_promote : (a : Attribute) → a.promote.encode = a.encode
  | ⟨name, payload⟩ => by
    rw [Attribute.promote, Attribute.encode, Attribute.encode, payload.encode_promote]

theorem Payload.encode_promote (payload : Payload) : payload.promote.encode = payload.encode := by
  cases payload with
  | code body => exact body.encode_promote
  | stackMapTable frames =>
    rw [Payload.promote, Payload.encode, Payload.encode, concatM_promote, List.length_map]
  | record components =>
    rw [Payload.promote, Payload.encode, Payload.encode, length_promoteComponents,
      encodeComponents_promote]
  | _ => rfl

theorem CodeBody.encode_promote : (body : CodeBody) → body.promote.encode = body.encode
  | ⟨maxStack, maxLocals, instructions, handlers, attributes⟩ => by
    rw [CodeBody.promote, CodeBody.encode, CodeBody.encode, length_promoteAttributes,
      encodeAttributes_promote]

theorem encodeAttributes_promote (pieces : List Bytes) : (attributes : List Attribute) →
    encodeAttributes pieces (promoteAttributes attributes) = encodeAttributes pieces attributes
  | [] => rfl
  | a :: rest => by
    rw [promoteAttributes, encodeAttributes, encodeAttributes, a.encode_promote]
    simp only [fun pieces => encodeAttributes_promote pieces rest]

theorem encodeComponents_promote (pieces : List Bytes) : (components : List Component) →
    encodeComponents pieces (promoteComponents components) = encodeComponents pieces components
  | [] => rfl
  | ⟨name, descriptor, attributes⟩ :: rest => by
    rw [promoteComponents, encodeComponents, encodeComponents, length_promoteAttributes,
      encodeAttributes_promote]
    simp only [fun pieces => encodeComponents_promote pieces rest]

end

theorem Attribute.encodeTable_promote (attributes : List Attribute) :
    Attribute.encodeTable (promoteAttributes attributes) = Attribute.encodeTable attributes := by
  rw [Attribute.encodeTable, Attribute.encodeTable, length_promoteAttributes,
    encodeAttributes_promote]

/-! ## Classes -/

def Member.promote (m : Member) : Member := { m with attributes := promoteAttributes m.attributes }

theorem Member.encode_promote (m : Member) : m.promote.encode = m.encode := by
  rw [Member.encode, Member.promote, Attribute.encodeTable_promote]
  rfl

theorem concatM_member_promote (ms : List Member) :
    concatM Member.encode (ms.map Member.promote) = concatM Member.encode ms :=
  concatM_congr (List.forall₂_map_left_iff.2 (List.forall₂_same.2 fun m _ => m.encode_promote))

/-- The class as it is written and read back. -/
def ClassFile.promote (c : ClassFile) : ClassFile :=
  { c with
    fields := c.fields.map Member.promote
    methods := c.methods.map Member.promote
    attributes := promoteAttributes c.attributes }

theorem ClassFile.encode_promote (c : ClassFile) : c.promote.encode = c.encode := by
  have hbody : c.promote.encodeBody = c.encodeBody := by
    unfold encodeBody promote
    rw [concatM_member_promote, concatM_member_promote, Attribute.encodeTable_promote,
      List.length_map, List.length_map]
  unfold encode pieces
  rw [hbody]
  rfl

end JvmClass
