import JvmClass.Proofs.Code.Emitted

/-!
# Counts and lengths

A `Format` says how bytes are made up, with true numbers where a table is counted or a payload is
measured. Whatever class is written, every number in the output is the true one, with one
exception: the count of the pool is taken modulo 65536. So a class is written as its format says
exactly if its pool has fewer than 65535 slots.
-/

namespace JvmClass

/-! ## Formats -/

/-- The number that bytes stand for, the most significant byte first. -/
def Bytes.value (bytes : Bytes) : Nat := bytes.foldl (fun n b => n * 0x100 + b.toNat) 0

/-- How bytes are made up. -/
inductive Format where
  | bytes (content : Bytes)
  /-- A number in so many bytes. -/
  | number (width value : Nat)
  /-- One part behind the other. -/
  | parts (list : List Format)
  /-- A body, with its length in front. -/
  | measured (width : Nat) (body : Format)

namespace Format

/-- Items with their number in front. -/
def table (width : Nat) (items : List Format) : Format :=
  .parts [.number width items.length, .parts items]

/-- What is written without any number that announces something. -/
def plain (encoded : Except Error Bytes) : Format := .bytes (encoded.toOption.getD [])

/-- Bytes are made up as a format says. -/
inductive Written : Format → Bytes → Prop
  | bytes (content : Bytes) : Written (.bytes content) content
  | number {width value field} : field.length = width → field.value = value →
      Written (.number width value) field
  | nil : Written (.parts []) []
  | cons {f fs u v} : Written f u → Written (.parts fs) v → Written (.parts (f :: fs)) (u ++ v)
  | measured {width body field out} : Written body out → Written (.number width out.length) field →
      Written (.measured width body) (field ++ out)

/-! ## Numbers -/

theorem value_ofU16 (w : UInt16) : (Bytes.ofU16 w).value = w.toNat := by
  have h := w.toNat_lt
  simp only [Bytes.value, Bytes.ofU16, List.foldl_cons, List.foldl_nil, UInt8.toNat_ofNat']
  omega

theorem value_ofU32 (w : UInt32) : (Bytes.ofU32 w).value = w.toNat := by
  have h := w.toNat_lt
  simp only [Bytes.value, Bytes.ofU32, List.foldl_cons, List.foldl_nil, UInt8.toNat_ofNat']
  omega

theorem written_ofU16 (w : UInt16) : (number 2 w.toNat).Written (Bytes.ofU16 w) :=
  .number rfl (value_ofU16 w)

theorem written_ofU32 {n : Nat} (h : n < 0x100000000) :
    (number 4 n).Written (Bytes.ofU32 (UInt32.ofNat n)) := by
  refine .number rfl ?_
  rw [value_ofU32, UInt32.toNat_ofNat']
  omega

theorem written_byte {n : Nat} (h : n < 0x100) : (number 1 n).Written [UInt8.ofNat n] := by
  refine .number rfl ?_
  simp only [Bytes.value, List.foldl_cons, List.foldl_nil, UInt8.toNat_ofNat']
  omega

theorem written_ofCount {n : Nat} (h : n < 0x10000) : (number 2 n).Written (Bytes.ofCount n) := by
  have hn : (UInt16.ofNat n).toNat = n := by
    rw [UInt16.toNat_ofNat']
    omega
  have hw := written_ofU16 (UInt16.ofNat n)
  rwa [hn] at hw

/-- A field has no room for more than its width. -/
theorem lt_of_written_number {n : Nat} {field : Bytes} (h : (number 2 n).Written field) :
    n < 0x10000 := by
  cases h with
  | number hl hv =>
    match field, hl with
    | [a, b], _ =>
      have ha := a.toNat_lt
      have hb := b.toNat_lt
      simp only [Bytes.value, List.foldl_cons, List.foldl_nil] at hv
      omega

/-! ## Parts -/

theorem Written.pair {f g : Format} {u v : Bytes} (hf : f.Written u) (hg : g.Written v) :
    (parts [f, g]).Written (u ++ v) := by
  have h := Written.cons hf (.cons hg .nil)
  rwa [List.append_nil] at h

theorem Written.plain {encoded : Except Error Bytes} {out : Bytes} (h : encoded = .ok out) :
    (Format.plain encoded).Written out := by
  subst h
  exact .bytes out

theorem written_flatMap {α : Type} (enc : α → Bytes) (as : List α) :
    (parts (as.map fun a => .bytes (enc a))).Written (as.flatMap enc) := by
  induction as with
  | nil => exact .nil
  | cons a as ih => exact .cons (.bytes _) ih

theorem written_concatM {α : Type} {enc : α → Except Error Bytes} {format : α → Format}
    {as : List α} {out : Bytes} (hf : ∀ a ∈ as, ∀ u, enc a = .ok u → (format a).Written u)
    (h : concatM enc as = .ok out) : (parts (as.map format)).Written out := by
  induction as generalizing out with
  | nil =>
    cases h
    exact .nil
  | cons a as ih =>
    obtain ⟨ha, has⟩ := List.forall_mem_cons.1 hf
    rw [concatM_cons, append_eq_ok] at h
    obtain ⟨u, v, hu, hv, rfl⟩ := h
    exact .cons (ha u hu) (ih has hv)

theorem Written.table {width n : Nat} {items : List Format} {count v : Bytes}
    (hc : (Format.number width n).Written count) (hn : items.length = n)
    (hv : (parts items).Written v) : (Format.table width items).Written (count ++ v) := by
  subst hn
  exact hc.pair hv

/-- A table of items of one form. -/
theorem written_table {α : Type} {enc : α → Bytes} {t : Table} {as : List α} {out : Bytes}
    (h : (do return (← t.count as.length) ++ as.flatMap enc) = .ok out) :
    (table 2 (as.map fun a => .bytes (enc a))).Written out := by
  obtain ⟨hl, rfl⟩ := Table.encode_eq_ok.1 h
  exact (written_ofCount hl).table (List.length_map _) (written_flatMap enc as)

/-- A table of items that may fail to be written. -/
theorem written_tableM {α : Type} {enc : α → Except Error Bytes} {format : α → Format} {t : Table}
    {as : List α} {out : Bytes} (hf : ∀ a ∈ as, ∀ u, enc a = .ok u → (format a).Written u)
    (h : (do return (← t.count as.length) ++ (← concatM enc as)) = .ok out) :
    (table 2 (as.map format)).Written out := by
  obtain ⟨hl, v, hv, rfl⟩ := Table.encodeM_eq_ok.1 h
  exact (written_ofCount hl).table (List.length_map _) (written_concatM hf hv)

end Format

/-! ## Constants, frames and annotations -/

open Format

/-- A text is its length and its bytes. -/
def Constant.format : Constant → Format
  | utf8 s => .parts [.bytes [1], .measured 2 (.bytes (Text.encode s))]
  | utf8Unpaired us => .parts [.bytes [1], .measured 2 (.bytes (Text.encodeUnits us))]
  | c => .plain c.encode

/-- The first byte of some frames tells how many locals are dropped or added. -/
def Frame.format : Frame → Format
  | chop d count => .parts [.number 1 (251 - count.toNat), .bytes (Bytes.ofU16 d)]
  | append d locals => .parts [.number 1 (251 + locals.length), .bytes (Bytes.ofU16 d),
      .parts (locals.map fun t => .bytes t.encode)]
  | full d locals stack => .parts [.bytes (255 :: Bytes.ofU16 d),
      .table 2 (locals.map fun t => .bytes t.encode), .table 2 (stack.map fun t => .bytes t.encode)]
  | frame => .plain frame.encode

mutual

def ElementValue.format : ElementValue → Format
  | .const tag index => .bytes (tag :: Bytes.ofU16 index)
  | .enum type constant =>
    .bytes (ElementValue.enumTag :: (Bytes.ofU16 type ++ Bytes.ofU16 constant))
  | .classInfo index => .bytes (ElementValue.classTag :: Bytes.ofU16 index)
  | .nested content => .parts [.bytes [ElementValue.nestedTag], content.format]
  | .array values => .parts [.bytes [ElementValue.arrayTag], .table 2 (valueFormats values)]

def AnnotationInfo.format : AnnotationInfo → Format
  | ⟨type, elements⟩ => .parts [.bytes (Bytes.ofU16 type), .table 2 (elementFormats elements)]

def valueFormats : List ElementValue → List Format
  | [] => []
  | value :: rest => value.format :: valueFormats rest

def elementFormats : List Element → List Format
  | [] => []
  | ⟨name, value⟩ :: rest =>
    .parts [.bytes (Bytes.ofU16 name), value.format] :: elementFormats rest

end

theorem Constant.written {c : Constant} {out : Bytes} (h : c.encode = .ok out) :
    c.format.Written out := by
  have htext {bytes : Bytes} (h : encodeText bytes = .ok out) :
      (Format.parts [.bytes [1], .measured 2 (.bytes bytes)]).Written out := by
    unfold encodeText at h
    split at h
    · rename_i hl
      cases h
      exact (Written.bytes [1]).pair (.measured (.bytes bytes) (written_ofCount hl))
    · cases h
  cases c with
  | utf8 s => exact htext h
  | utf8Unpaired us => exact htext h
  | _ => exact .plain h

theorem Frame.written {frame : Frame} {out : Bytes} (h : frame.encode = .ok out) :
    frame.format.Written out := by
  cases frame with
  | chop d count =>
    rw [encode] at h
    split at h
    · cases h
      exact (written_byte (by omega)).pair (.bytes _)
    · cases h
  | append d locals =>
    rw [encode] at h
    split at h
    · rename_i hfew
      cases h
      have hlocals : 251 + locals.length < 0x100 := by
        have hle := (fewLocals_iff.1 hfew).2
        omega
      exact .cons (written_byte hlocals) ((Written.bytes _).pair (written_flatMap _ locals))
    · cases h
  | full d locals stack =>
    obtain ⟨u, hu, h⟩ := exceptBind_eq_ok.1 h
    obtain ⟨v, hv, h⟩ := exceptBind_eq_ok.1 h
    cases h
    have hw := Written.cons (.bytes (255 :: Bytes.ofU16 d))
      ((written_table hu).pair (written_table hv))
    simpa [Frame.format] using hw
  | _ => exact .plain h

@[simp]
theorem length_valueFormats (values : List ElementValue) :
    (valueFormats values).length = values.length := by
  induction values with
  | nil => rfl
  | cons v rest ih => rw [valueFormats, List.length_cons, ih, List.length_cons]

@[simp]
theorem length_elementFormats (elements : List Element) :
    (elementFormats elements).length = elements.length := by
  induction elements with
  | nil => rfl
  | cons e rest ih =>
    obtain ⟨name, value⟩ := e
    rw [elementFormats, List.length_cons, ih, List.length_cons]

mutual

theorem ElementValue.written : (value : ElementValue) → {out : Bytes} → value.encode = .ok out →
    value.format.Written out
  | .const .., _, h | .enum .., _, h | .classInfo _, _, h => by
    cases h
    exact .bytes _
  | .nested content, _, h => by
    obtain ⟨v, hv, rfl⟩ := ElementValue.encode_nested_eq_ok.1 h
    exact (Written.bytes _).pair (content.written hv)
  | .array values, _, h => by
    obtain ⟨hl, v, hv, rfl⟩ := ElementValue.encode_array_eq_ok.1 h
    exact (Written.bytes _).pair
      ((written_ofCount hl).table (length_valueFormats values) (values_written values hv))

theorem AnnotationInfo.written : (a : AnnotationInfo) → {out : Bytes} → a.encode = .ok out →
    a.format.Written out
  | ⟨type, elements⟩, _, h => by
    obtain ⟨hl, v, hv, rfl⟩ := AnnotationInfo.encode_eq_ok.1 h
    rw [List.append_assoc]
    exact (Written.bytes _).pair
      ((written_ofCount hl).table (length_elementFormats elements) (elements_written elements hv))

theorem values_written : (values : List ElementValue) → {out : Bytes} →
    concatM ElementValue.encode values = .ok out → (Format.parts (valueFormats values)).Written out
  | [], _, h => by
    cases h
    exact .nil
  | value :: rest, _, h => by
    rw [concatM_cons, append_eq_ok] at h
    obtain ⟨u, v, hu, hv, rfl⟩ := h
    exact .cons (value.written hu) (values_written rest hv)

theorem elements_written : (elements : List Element) → {out : Bytes} →
    concatM Element.encode elements = .ok out → (Format.parts (elementFormats elements)).Written out
  | [], _, h => by
    cases h
    exact .nil
  | ⟨name, value⟩ :: rest, _, h => by
    rw [concatM_cons, append_eq_ok] at h
    obtain ⟨_, v, he, hv, rfl⟩ := h
    obtain ⟨u, hu, h⟩ := exceptBind_eq_ok.1 he
    cases h
    exact .cons ((Written.bytes _).pair (value.written hu)) (elements_written rest hv)

end

/-! ## Code -/

namespace Instruction

/-- The pairs of a switch are counted. -/
def format (offset : Nat) : Instruction → Format
  | lookupSwitch default pairs => .parts [
      .bytes (Opcode.lookupswitch.code :: (padding offset ++ wideDistance offset default)),
      .number 4 pairs.length,
      .bytes (pairs.flatMap fun (key, target) => ofI32 key ++ wideDistance offset target)]
  | i => .plain (i.encode offset)

theorem written {offset : Nat} {i : Instruction} {out : Bytes}
    (hpairs : ∀ default pairs, i = lookupSwitch default pairs → pairs.length < 0x100000000)
    (h : i.encode offset = .ok out) : (i.format offset).Written out := by
  cases i with
  | lookupSwitch default pairs =>
    cases h
    have hw := Written.cons
      (.bytes (Opcode.lookupswitch.code :: (padding offset ++ wideDistance offset default)))
      ((written_ofU32 (hpairs default pairs rfl)).pair
        (.bytes (pairs.flatMap fun (key, target) => ofI32 key ++ wideDistance offset target)))
    simpa [format, isWide, opcode] using hw
  | _ => exact .plain h

end Instruction

namespace Code

def formatsFrom : (offset : Nat) → List Instruction → List Format
  | _, [] => []
  | offset, i :: rest => i.format offset :: formatsFrom (offset + i.encodedLength offset) rest

theorem written_encodeFrom {offset : Nat} {code : List Instruction} {out : Bytes}
    (hpairs : ∀ default pairs, .lookupSwitch default pairs ∈ code → pairs.length < 0x100000000)
    (h : encodeFrom offset code = .ok out) :
    (Format.parts (formatsFrom offset code)).Written out := by
  induction code generalizing offset out with
  | nil =>
    cases h
    exact .nil
  | cons i rest ih =>
    rw [encodeFrom, append_eq_ok] at h
    obtain ⟨u, v, hu, hv, rfl⟩ := h
    refine .cons (Instruction.written (fun default pairs hi => ?_) hu)
      (ih (fun default pairs hm => hpairs default pairs (List.mem_cons_of_mem i hm)) hv)
    exact hpairs default pairs (hi ▸ List.mem_cons_self)

theorem length_encodeFrom_le {offset : Nat} {code : List Instruction} {out : Bytes}
    (h : encodeFrom offset code = .ok out) : 2 * offset + out.length ≤ 2 * endFrom offset code := by
  induction code generalizing offset out with
  | nil =>
    cases h
    simp [endFrom]
  | cons i rest ih =>
    rw [encodeFrom, append_eq_ok] at h
    obtain ⟨u, v, hu, hv, rfl⟩ := h
    have hfirst := Instruction.length_encode hu
    have hwide := i.isOverwide.toNat_le
    have hpos := i.encodedLength_pos offset
    have hrest := ih hv
    rw [endFrom, List.length_append]
    omega

/-- Code that is written is laid out as it is. -/
theorem targetsIn_of_reassemble {code : List Instruction} {a : Assembled}
    (h : reassemble code = .ok a) : TargetsIn (startsFrom 0 code) code := by
  intro i hi target ht
  obtain ⟨j, -, hij⟩ := exists_of_forall₂ (retargeted_of_assemble h).2.flip i hi
  obtain ⟨target', -, index, hresolve, hlt, -⟩ := exists_of_forall₂ hij.targets.flip target ht
  unfold resolveOffset at hresolve
  split at hresolve
  · rename_i hindex
    cases hresolve
    have hoffset := indexByOffset_eq_some_iff.1 hindex
    rw [offsets_eq, List.getElem?_toArray,
      List.getElem?_append_left (by rwa [length_startsFrom])] at hoffset
    exact List.mem_of_getElem? hoffset
  · cases hresolve

theorem written_reassemble {code : List Instruction} {a : Assembled}
    (h : reassemble code = .ok a) :
    (Format.parts (formatsFrom 0 code)).Written a.bytes ∧ a.bytes.length < 0x100000000 := by
  obtain ⟨hend, hencode, -, -⟩ := (reassemble_eq_ok_iff (targetsIn_of_reassemble h)).1 h
  refine ⟨written_encodeFrom (fun default pairs hm => ?_) hencode, ?_⟩
  · have hlt := length_lt_of_mem hend hm
    omega
  · have hle := length_encodeFrom_le hencode
    omega

end Code

/-! ## Attributes -/

def annotationFormats (annotations : List AnnotationInfo) : Format :=
  .table 2 (annotations.map AnnotationInfo.format)

mutual

/-- The length of its payload stands in front of it. -/
def Attribute.format : Attribute → Format
  | ⟨name, payload⟩ => .parts [.bytes (Bytes.ofU16 name), .measured 4 payload.format]

def Payload.format : Payload → Format
  | .code body => body.format
  | .constantValue index | .sourceFile index | .signature index | .nestHost index =>
    .bytes (Bytes.ofU16 index)
  | .exceptions classes | .nestMembers classes | .permittedSubclasses classes =>
    .table 2 (classes.map fun i => .bytes (Bytes.ofU16 i))
  | .lineNumberTable lines => .table 2 (lines.map fun l => .bytes l.encode)
  | .localVariableTable locals | .localVariableTypeTable locals =>
    .table 2 (locals.map fun v => .bytes v.encode)
  | .stackMapTable frames => .table 2 (frames.map Frame.format)
  | .innerClasses classes => .table 2 (classes.map fun c => .bytes c.encode)
  | .enclosingMethod owner method => .bytes (Bytes.ofU16 owner ++ Bytes.ofU16 method)
  | .bootstrapMethods methods => .table 2 (methods.map fun m =>
      .parts [.bytes (Bytes.ofU16 m.method),
        .table 2 (m.arguments.map fun i => .bytes (Bytes.ofU16 i))])
  | .methodParameters parameters => .table 1 (parameters.map fun p => .bytes p.encode)
  | .deprecated | .synthetic => .bytes []
  | .visibleAnnotations annotations | .invisibleAnnotations annotations =>
    annotationFormats annotations
  | .visibleParameterAnnotations parameters | .invisibleParameterAnnotations parameters =>
    .table 1 (parameters.map annotationFormats)
  | .annotationDefault value => value.format
  | .record components => .table 2 (componentFormats components)
  | .sourceDebugExtension content | .raw content => .bytes content

/-- The length of the code, and the numbers of handlers and attributes. -/
def CodeBody.format : CodeBody → Format
  | ⟨maxStack, maxLocals, instructions, handlers, attributes⟩ => .parts [
      .bytes (Bytes.ofU16 maxStack ++ Bytes.ofU16 maxLocals),
      .measured 4 (.parts (Code.formatsFrom 0 instructions)),
      .table 2 (handlers.map fun h => .bytes h.encode),
      .table 2 (attributeFormats attributes)]

def attributeFormats : List Attribute → List Format
  | [] => []
  | a :: rest => a.format :: attributeFormats rest

def componentFormats : List Component → List Format
  | [] => []
  | ⟨name, descriptor, attributes⟩ :: rest =>
    .parts [.bytes (Bytes.ofU16 name ++ Bytes.ofU16 descriptor),
      .table 2 (attributeFormats attributes)] :: componentFormats rest

end

@[simp]
theorem length_attributeFormats (attributes : List Attribute) :
    (attributeFormats attributes).length = attributes.length := by
  induction attributes with
  | nil => rfl
  | cons a rest ih => rw [attributeFormats, List.length_cons, ih, List.length_cons]

@[simp]
theorem length_componentFormats (components : List Component) :
    (componentFormats components).length = components.length := by
  induction components with
  | nil => rfl
  | cons c rest ih =>
    obtain ⟨name, descriptor, attributes⟩ := c
    rw [componentFormats, List.length_cons, ih, List.length_cons]

theorem BootstrapMethod.written {m : BootstrapMethod} {out : Bytes} (h : m.encode = .ok out) :
    (Format.parts [.bytes (Bytes.ofU16 m.method),
      .table 2 (m.arguments.map fun i => .bytes (Bytes.ofU16 i))]).Written out := by
  obtain ⟨v, hv, h⟩ := exceptBind_eq_ok.1 h
  cases h
  exact (Written.bytes _).pair (written_table hv)

theorem annotations_written {annotations : List AnnotationInfo} {out : Bytes}
    (h : AnnotationInfo.encodeTable annotations = .ok out) :
    (annotationFormats annotations).Written out :=
  written_tableM (fun a _ _ ha => a.written ha) h

theorem parameterAnnotations_written {parameters : List (List AnnotationInfo)} {out : Bytes}
    (h : encodeParameterAnnotations parameters = .ok out) :
    (Format.table 1 (parameters.map annotationFormats)).Written out := by
  obtain ⟨u, v, hu, hv, rfl⟩ := append_eq_ok.1 h
  obtain ⟨hl, rfl⟩ := Table.shortCount_eq_ok.1 hu
  exact (written_byte hl).table (List.length_map _)
    (written_concatM (fun as _ _ has => annotations_written has) hv)

mutual

theorem Attribute.written : (a : Attribute) → {out : Bytes} → a.encode = .ok out →
    a.format.Written out
  | ⟨name, payload⟩, _, h => by
    rw [Attribute.encode] at h
    obtain ⟨v, hv, hframe⟩ := exceptBind_eq_ok.1 h
    unfold Attribute.frame at hframe
    split at hframe
    · rename_i hl
      cases hframe
      rw [List.append_assoc]
      exact (Written.bytes _).pair (.measured (payload.written hv) (written_ofU32 hl))
    · cases hframe

theorem Payload.written (payload : Payload) {out : Bytes} (h : payload.encode = .ok out) :
    payload.format.Written out := by
  cases payload with
  | code body => exact body.written h
  | constantValue | sourceFile | signature | nestHost | enclosingMethod | deprecated | synthetic
  | sourceDebugExtension | raw =>
    cases h
    exact .bytes _
  | exceptions | nestMembers | permittedSubclasses | lineNumberTable | localVariableTable
  | localVariableTypeTable | innerClasses => exact written_table h
  | stackMapTable frames => exact written_tableM (fun _ _ _ hf => Frame.written hf) h
  | bootstrapMethods methods => exact written_tableM (fun _ _ _ hm => BootstrapMethod.written hm) h
  | methodParameters parameters =>
    obtain ⟨u, hu, h⟩ := exceptBind_eq_ok.1 h
    obtain ⟨hl, rfl⟩ := Table.shortCount_eq_ok.1 hu
    cases h
    exact (written_byte hl).table (List.length_map _) (written_flatMap _ parameters)
  | visibleAnnotations | invisibleAnnotations => exact annotations_written h
  | visibleParameterAnnotations | invisibleParameterAnnotations =>
    exact parameterAnnotations_written h
  | annotationDefault value => exact value.written h
  | record components =>
    rw [Payload.encode_record, append_eq_ok] at h
    obtain ⟨u, v, hu, hv, rfl⟩ := h
    obtain ⟨hl, rfl⟩ := Table.count_eq_ok.1 hu
    exact (written_ofCount hl).table (length_componentFormats components)
      (components_written components hv)

theorem CodeBody.written : (body : CodeBody) → {out : Bytes} → body.encode = .ok out →
    body.format.Written out
  | ⟨maxStack, maxLocals, instructions, handlers, attributes⟩, _, h => by
    rw [CodeBody.encode_eq] at h
    obtain ⟨assembled, hassembled, h⟩ := exceptBind_eq_ok.1 h
    obtain ⟨count, hcount, h⟩ := exceptBind_eq_ok.1 h
    obtain ⟨tail, htail, h⟩ := exceptBind_eq_ok.1 h
    cases h
    obtain ⟨hcode, hlength⟩ := Code.written_reassemble hassembled
    obtain ⟨hl, rfl⟩ := Table.count_eq_ok.1 hcount
    have hhandlers := (written_ofCount hl).table (List.length_map _)
      (written_flatMap Handler.encode handlers)
    have hw := Written.cons (.bytes (Bytes.ofU16 maxStack ++ Bytes.ofU16 maxLocals))
      (.cons (.measured hcode (written_ofU32 hlength))
        (hhandlers.pair (attributes_written attributes htail)))
    simpa [CodeBody.format] using hw

theorem attributes_written (attributes : List Attribute) {out : Bytes}
    (h : Attribute.encodeTable attributes = .ok out) :
    (Format.table 2 (attributeFormats attributes)).Written out := by
  rw [Attribute.encodeTable_eq, append_eq_ok] at h
  obtain ⟨u, v, hu, hv, rfl⟩ := h
  obtain ⟨hl, rfl⟩ := Table.count_eq_ok.1 hu
  exact (written_ofCount hl).table (length_attributeFormats attributes)
    (attributeList_written attributes hv)

theorem attributeList_written : (attributes : List Attribute) → {out : Bytes} →
    concatM Attribute.encode attributes = .ok out →
    (Format.parts (attributeFormats attributes)).Written out
  | [], _, h => by
    cases h
    exact .nil
  | a :: rest, _, h => by
    rw [concatM_cons, append_eq_ok] at h
    obtain ⟨u, v, hu, hv, rfl⟩ := h
    exact .cons (a.written hu) (attributeList_written rest hv)

theorem components_written : (components : List Component) → {out : Bytes} →
    concatM Component.encode components = .ok out →
    (Format.parts (componentFormats components)).Written out
  | [], _, h => by
    cases h
    exact .nil
  | ⟨name, descriptor, attributes⟩ :: rest, _, h => by
    rw [concatM_cons, append_eq_ok] at h
    obtain ⟨_, v, hc, hv, rfl⟩ := h
    obtain ⟨u, hu, h⟩ := exceptBind_eq_ok.1 hc
    cases h
    exact .cons ((Written.bytes _).pair (attributes_written attributes hu))
      (components_written rest hv)

end

/-! ## Classes -/

def Member.format (m : Member) : Format := .parts [
  .bytes (Bytes.ofU16 m.access.bits ++ Bytes.ofU16 m.name ++ Bytes.ofU16 m.descriptor),
  .table 2 (attributeFormats m.attributes)]

theorem Member.written {m : Member} {out : Bytes} (h : m.encode = .ok out) :
    m.format.Written out := by
  obtain ⟨v, hv, h⟩ := exceptBind_eq_ok.1 h
  cases h
  exact (Written.bytes _).pair (attributes_written m.attributes hv)

namespace ClassFile

/-- The format of a class, with some number in the place of the pool's count. -/
def formatWith (count : Nat) (c : ClassFile) : Format := .parts [
  .bytes (Bytes.ofU32 magic ++ Bytes.ofU16 c.minor ++ Bytes.ofU16 c.major),
  .number 2 count,
  .parts (c.pool.slots.toList.map Constant.format),
  .bytes (Bytes.ofU16 c.access.bits ++ Bytes.ofU16 c.thisClass ++ Bytes.ofU16 c.superClass),
  .table 2 (c.interfaces.map fun i => .bytes (Bytes.ofU16 i)),
  .table 2 (c.fields.map Member.format),
  .table 2 (c.methods.map Member.format),
  .table 2 (attributeFormats c.attributes)]

/-- The format of a class. The pool's count is the number of its slots plus one. -/
def format (c : ClassFile) : Format := c.formatWith (c.pool.size + 1)

theorem lt_of_written_formatWith {count : Nat} {c : ClassFile} {out : Bytes}
    (h : (c.formatWith count).Written out) : count < 0x10000 := by
  cases h with
  | cons _ hrest =>
    cases hrest with
    | cons hcount _ => exact lt_of_written_number hcount

theorem written_body {c : ClassFile} {out : Bytes} (h : c.encodeBody = .ok out) :
    (Format.parts [.table 2 (c.interfaces.map fun i => .bytes (Bytes.ofU16 i)),
      .table 2 (c.fields.map Member.format), .table 2 (c.methods.map Member.format),
      .table 2 (attributeFormats c.attributes)]).Written out := by
  obtain ⟨interfaces, hi, h⟩ := exceptBind_eq_ok.1 h
  obtain ⟨fieldCount, hfc, h⟩ := exceptBind_eq_ok.1 h
  obtain ⟨fields, hf, h⟩ := exceptBind_eq_ok.1 h
  obtain ⟨methodCount, hmc, h⟩ := exceptBind_eq_ok.1 h
  obtain ⟨methods, hm, h⟩ := exceptBind_eq_ok.1 h
  obtain ⟨attributes, ha, h⟩ := exceptBind_eq_ok.1 h
  cases h
  have hmember {t : Table} {ms : List Member} {count members : Bytes}
      (hc : t.count ms.length = .ok count) (hm : concatM Member.encode ms = .ok members) :
      (Format.table 2 (ms.map Member.format)).Written (count ++ members) :=
    written_tableM (fun _ _ _ hm => Member.written hm) (append_eq_ok.2 ⟨_, _, hc, hm, rfl⟩)
  have hw := Written.cons (written_table hi) (.cons (hmember hfc hf)
    ((hmember hmc hm).pair (attributes_written c.attributes ha)))
  simpa using hw

theorem written_formatWith {c : ClassFile} {out : Bytes} (h : c.encode = .ok out) :
    (c.formatWith ((c.pool.size + 1) % 0x10000)).Written out := by
  rw [encode_eq] at h
  obtain ⟨pool, hpool, h⟩ := exceptBind_eq_ok.1 h
  obtain ⟨body, hbody, h⟩ := exceptBind_eq_ok.1 h
  cases h
  unfold Pool.encode Pool.pieces at hpool
  rw [concatM_cons, concatM_id_map, append_eq_ok] at hpool
  obtain ⟨count, entries, hcount, hentries, rfl⟩ := hpool
  cases hcount
  have hnumber := written_ofU16 c.pool.count
  rw [Pool.count, UInt16.toNat_ofNat'] at hnumber
  have hw := Written.cons
    (.bytes (Bytes.ofU32 magic ++ Bytes.ofU16 c.minor ++ Bytes.ofU16 c.major))
    (.cons hnumber (.cons (written_concatM (fun _ _ _ hc => Constant.written hc) hentries)
      (.cons (.bytes (Bytes.ofU16 c.access.bits ++ Bytes.ofU16 c.thisClass ++
        Bytes.ofU16 c.superClass)) (written_body hbody))))
  simpa [formatWith, head, Pool.count] using hw

/-- Of the numbers in a written class, only the count of the pool can be wrong; it is, exactly if
there is no room for it. -/
theorem encode_counts {c : ClassFile} {out : Bytes} (h : c.encode = .ok out) :
    (c.formatWith ((c.pool.size + 1) % 0x10000)).Written out ∧
      (c.format.Written out ↔ c.pool.size + 1 < 0x10000) := by
  have hwritten := written_formatWith h
  refine ⟨hwritten, lt_of_written_formatWith, fun hlt => ?_⟩
  rw [Nat.mod_eq_of_lt hlt] at hwritten
  exact hwritten

/-- A class with tables of most kinds. -/
def tallied : ClassFile :=
  ⟨0, 49, ⟨#[.utf8 "A", .classRef 1, .long 5, .unusable]⟩, ⟨0x21⟩, 2, 0, [2], [],
    [⟨⟨1⟩, 1, 1, [⟨1, .code ⟨1, 0, [.push .bipush 3, .simple .ireturn], [⟨0, 1, 0, 0⟩],
        [⟨1, .lineNumberTable [⟨0, 1⟩, ⟨2, 2⟩]⟩, ⟨1, .stackMapTable [.full 2 [.top] [.long]]⟩]⟩⟩,
      ⟨1, .exceptions [2]⟩, ⟨1, .methodParameters [⟨1, ⟨0⟩⟩]⟩]⟩],
    [⟨1, .visibleAnnotations [⟨1, [⟨1, .array [.const 0x49 3]⟩]⟩]⟩]⟩

theorem encode_counts_tallied :
    ∃ out, tallied.encode = .ok out ∧ tallied.format.Written out := by
  have hok : ∃ out, tallied.encode = .ok out := ⟨_, by rfl⟩
  obtain ⟨out, hout⟩ := hok
  exact ⟨out, hout, (encode_counts hout).2.2 (by decide)⟩

/-- A class whose pool has a slot more than its count can announce. -/
def overfull : ClassFile :=
  ⟨0, 52, ⟨Array.replicate 65535 (.integer 0)⟩, ⟨0⟩, 0, 0, [], [], [], []⟩

/-- It is written, with the count zero. -/
theorem encode_overfull :
    ∃ out, overfull.encode = .ok out ∧ ¬overfull.format.Written out ∧
      (overfull.formatWith 0).Written out := by
  have hsize : overfull.pool.size = 65535 := by simp [overfull, Pool.size]
  have htexts : overfull.pool.TextsFit := by
    intro c hc form hform
    have hinteger : c = .integer 0 := by
      simp only [overfull, Array.toList_replicate, List.mem_replicate] at hc
      exact hc.2
    rw [hinteger] at hform
    cases hform
  obtain ⟨pool, hpool⟩ := Pool.encode_ok_iff.2 htexts
  have hencode : overfull.encode = .ok (overfull.head pool ++ [0, 0, 0, 0, 0, 0, 0, 0]) := by
    rw [encode_eq, hpool]
    rfl
  have hwritten := written_formatWith hencode
  rw [hsize] at hwritten
  refine ⟨_, hencode, fun hformat => ?_, hwritten⟩
  have hlt := lt_of_written_formatWith hformat
  rw [hsize] at hlt
  omega

end ClassFile

end JvmClass
