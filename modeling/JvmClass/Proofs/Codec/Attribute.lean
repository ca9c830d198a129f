import JvmClass.Proofs.Codec.Code
import JvmClass.Proofs.Codec.Payload

/-!
# Spellings of attributes

The bytes of an attribute determine it, and it determines them up to the code arrays inside it, at
any depth. So `Spells` keeps the code arrays beside the attribute, in the order in which they
stand: they are all that decides whether the attribute can be written, and whether it is written
as it was read.
-/

namespace JvmClass

open Reader

/-- A table of items, and the parts picked out of them. -/
def SpellsTable {α : Type} (spell : α → List Bytes → Bytes → Prop) (as : List α)
    (codes : List Bytes) (used : Bytes) : Prop :=
  as.length < 0x10000 ∧ ∃ v, GathersAll spell as codes v ∧ used = Bytes.ofCount as.length ++ v

theorem SpellsTable.nil {α : Type} {spell : α → List Bytes → Bytes → Prop} :
    SpellsTable spell [] [] [0, 0] := by
  have hzero : Bytes.ofCount 0 = [0, 0] := by decide
  exact ⟨by simp, [], .nil, by simp [hzero]⟩

theorem SpellsTable.singleton {α : Type} {spell : α → List Bytes → Bytes → Prop} {a : α}
    {codes : List Bytes} {used : Bytes} (h : spell a codes used) :
    SpellsTable spell [a] codes ([0, 1] ++ used) := by
  have hone : Bytes.ofCount 1 = [0, 1] := by decide
  have hall := GathersAll.cons h .nil
  rw [List.append_nil, List.append_nil] at hall
  exact ⟨by simp, used, hall, by simp [hone]⟩

/-- A `Code` payload: its code array comes first among its parts. -/
def CodeBody.SpellsWith (p : Pool) (inner : Attribute → List Bytes → Bytes → Prop) :
    CodeBody → List Bytes → Bytes → Prop
  | ⟨maxStack, maxLocals, instructions, handlers, attributes⟩, codes, used =>
    ∃ code rest v, code.length < 0x100000000 ∧ Instruction.decode p code = .ok instructions ∧
      handlers.length < 0x10000 ∧ SpellsTable inner attributes rest v ∧ codes = code :: rest ∧
      used = Bytes.ofU16 maxStack ++ Bytes.ofU16 maxLocals ++
        Bytes.ofU32 (UInt32.ofNat code.length) ++ code ++ Bytes.ofCount handlers.length ++
        handlers.flatMap Handler.encode ++ v

/-- Code with neither handlers nor attributes. -/
theorem CodeBody.SpellsWith.plain {p : Pool} {inner : Attribute → List Bytes → Bytes → Prop}
    {code : Bytes} {instructions : List Instruction} (hlength : code.length < 0x100000000)
    (hdecode : Instruction.decode p code = .ok instructions) (maxStack maxLocals : UInt16) :
    SpellsWith p inner ⟨maxStack, maxLocals, instructions, [], []⟩ [code]
      (Bytes.ofU16 maxStack ++ Bytes.ofU16 maxLocals ++ Bytes.ofU32 (UInt32.ofNat code.length) ++
        code ++ [0, 0, 0, 0]) := by
  refine ⟨code, [], [0, 0], hlength, hdecode, by simp, .nil, rfl, ?_⟩
  have hnone : Bytes.ofCount 0 = [0, 0] := by decide
  simp [hnone]

def Component.SpellsWith (inner : Attribute → List Bytes → Bytes → Prop) :
    Component → List Bytes → Bytes → Prop
  | ⟨name, descriptor, attributes⟩, codes, used => ∃ v, SpellsTable inner attributes codes v ∧
    used = Bytes.ofU16 name ++ Bytes.ofU16 descriptor ++ v

/-- `used` is read as the payload stored under `name`, given what is read inside. -/
def Payload.SpellsWith (p : Pool) (inner : Attribute → List Bytes → Bytes → Prop) (name : String) :
    Payload → List Bytes → Bytes → Prop
  | .code body, codes, used => name = "Code" ∧ body.SpellsWith p inner codes used
  | .record components, codes, used =>
    name = "Record" ∧ SpellsTable (Component.SpellsWith inner) components codes used
  | .raw bytes, codes, used =>
    (∀ payload : Payload, payload.name? ≠ some name) ∧ codes = [] ∧ used = bytes
  | payload, codes, used =>
    payload.name? = some name ∧ payload.IsReadable ∧ codes = [] ∧ payload.encode = .ok used

/-- `used` is read as the attribute, in which attributes nest less than `depth` deep. -/
def Attribute.Spells (p : Pool) : (depth : Nat) → Attribute → List Bytes → Bytes → Prop
  | 0, _, _, _ => False
  | depth + 1, ⟨index, payload⟩, codes, used => ∃ name v, p.text index = .ok name ∧
    v.length < 0x100000000 ∧ payload.SpellsWith p (Attribute.Spells p depth) name codes v ∧
    used = Bytes.ofU16 index ++ Bytes.ofU32 (UInt32.ofNat v.length) ++ v

/-! ## Reading -/

section Reading

variable {inner : Reader Attribute} {spell : Attribute → List Bytes → Bytes → Prop}

theorem reads_spellsTable {α : Type} {r : Reader α} {spell : α → List Bytes → Bytes → Prop}
    (h : Reads r fun a used => ∃ codes, spell a codes used) {size : Nat}
    (min : ∀ a codes used, spell a codes used → size ≤ used.length) :
    Reads (table size r) fun as used => ∃ codes, SpellsTable spell as codes used := by
  refine (h.table fun a u ⟨codes, hu⟩ => min a codes u hu).congr fun as used => ?_
  constructor
  · rintro ⟨hl, v, hv, rfl⟩
    obtain ⟨codes, hv⟩ := exists_gathersAll_iff.2 hv
    exact ⟨codes, hl, v, hv, rfl⟩
  · rintro ⟨codes, hl, v, hv, rfl⟩
    exact ⟨hl, v, exists_gathersAll_iff.1 ⟨codes, hv⟩, rfl⟩

theorem Payload.spellsWith_flat {p : Pool} {name : String} {payload : Payload} {used : Bytes}
    (hn : payload.name? = some name) (hr : payload.IsReadable) (he : payload.encode = .ok used) :
    ∃ codes, payload.SpellsWith p spell name codes used := by
  cases payload with
  | code | record | raw => exact hr.elim
  | _ => exact ⟨[], hn, hr, rfl, he⟩

/-- A payload of one part, of which nothing nests, is read by the reader of its name. -/
theorem Payload.run_flat {p : Pool} {name known : String} {α : Type} {r : Reader α}
    {make : α → Payload} {a : α} {codes : List Bytes} {used : Bytes} (hflat : ReadsFlat r make)
    (hname : (make a).name? = some known)
    (hread : Payload.readWith p inner known = do return make (← r))
    (hs : (make a).name? = some name ∧ (make a).IsReadable ∧ codes = [] ∧
      (make a).encode = .ok used) (offset : Nat) :
    Payload.readWith p inner name ⟨used, offset, .off⟩ =
      .ok (make a) ⟨[], offset + used.length, .off⟩ := by
  obtain ⟨hn, hr, -, he⟩ := hs
  obtain rfl : known = name := Option.some.inj (hname.symm.trans hn)
  rw [hread]
  exact hflat.run ⟨a, rfl, hr, he⟩ offset

theorem Component.length_ge (c : Component) (codes : List Bytes) (used : Bytes)
    (h : c.SpellsWith spell codes used) : 6 ≤ used.length := by
  obtain ⟨name, descriptor, attributes⟩ := c
  obtain ⟨v, ⟨-, w, -, rfl⟩, rfl⟩ := h
  simp [Bytes.ofCount]
  omega

variable (h : Reads inner fun a used => ∃ codes, spell a codes used)
  (min : ∀ a codes used, spell a codes used → 6 ≤ used.length)

include h min

theorem CodeBody.reads_readWith (p : Pool) :
    Reads (CodeBody.readWith p inner) fun body used =>
      ∃ codes, body.SpellsWith p spell codes used := by
  unfold CodeBody.readWith
  refine (reads_u16.bind fun maxStack _ _ => reads_u16.bind fun maxLocals _ _ =>
    reads_u32.bind fun length _ _ => (reads_take length.toNat).bind fun code _ _ =>
    (reads_ofExcept (Instruction.decode p code)).bind fun instructions _ _ =>
    (Handler.reads_read.table fun h u hu => hu ▸ Nat.le_refl 8).bind fun handlers _ _ =>
    (reads_spellsTable h min).map
      (CodeBody.mk maxStack maxLocals instructions handlers)).congr
    fun ⟨maxStack, maxLocals, instructions, handlers, attributes⟩ used => ?_
  simp only [SpellsAll.eq_flatMap, exists_eq_left]
  constructor
  · rintro ⟨_, _, _, rfl, ⟨_, _, _, rfl, ⟨length, _, _, rfl, ⟨_, code, _, ⟨rfl, hlen⟩,
      ⟨_, _, _, ⟨hd, rfl⟩, ⟨_, _, _, ⟨hh, rfl⟩, ⟨_, e, rest, hs⟩, rfl⟩, rfl⟩, rfl⟩, rfl⟩, rfl⟩, rfl⟩
    cases e
    have hlt := length.toNat_lt
    refine ⟨code :: rest, code, rest, _, by omega, hd, hh, hs, rfl, ?_⟩
    rw [hlen, UInt32.ofNat_toNat]
    simp
  · rintro ⟨_, code, rest, v, hlen, hd, hh, hs, rfl, rfl⟩
    have hn : (UInt32.ofNat code.length).toNat = code.length := by
      rw [UInt32.toNat_ofNat']
      omega
    simp only [List.append_assoc]
    refine ⟨maxStack, _, _, rfl, ?_, rfl⟩
    refine ⟨maxLocals, _, _, rfl, ?_, rfl⟩
    refine ⟨UInt32.ofNat code.length, _, _, rfl, ?_, rfl⟩
    refine ⟨code, _, _, ⟨rfl, hn.symm⟩, ?_, rfl⟩
    refine ⟨instructions, [], _, ⟨hd, rfl⟩, ?_, (List.nil_append _).symm⟩
    refine ⟨handlers, _, v, ⟨hh, rfl⟩, ?_, (List.append_assoc ..).symm⟩
    exact ⟨attributes, rfl, rest, hs⟩

theorem Component.reads_readWith :
    Reads (Component.readWith inner) fun c used => ∃ codes, c.SpellsWith spell codes used := by
  refine (reads_u16.bind fun name _ _ => reads_u16.bind fun descriptor _ _ =>
    (reads_spellsTable h min).map (Component.mk name descriptor)).congr
    fun ⟨name, descriptor, attributes⟩ used => ?_
  constructor
  · rintro ⟨_, _, _, rfl, ⟨_, _, v, rfl, ⟨_, e, codes, hs⟩, rfl⟩, rfl⟩
    cases e
    exact ⟨codes, v, hs, by simp⟩
  · rintro ⟨codes, v, hs, rfl⟩
    exact ⟨name, _, _, rfl, ⟨descriptor, _, v, rfl, ⟨attributes, rfl, codes, hs⟩, rfl⟩, by simp⟩

theorem Payload.sound_readWith (p : Pool) (name : String) :
    SoundAll (Payload.readWith p inner name) fun payload used =>
      ∃ codes, payload.SpellsWith p spell name codes used := by
  have flat {α : Type} {r : Reader α} {make : α → Payload} {name : String} (hr : ReadsFlat r make)
      (hn : ∀ a, (make a).name? = some name) : SoundAll (do return make (← r)) fun payload used =>
        ∃ codes, payload.SpellsWith p spell name codes used := by
    refine hr.sound ?_
    rintro _ _ ⟨a, rfl, hr, he⟩
    exact spellsWith_flat (hn a) hr he
  unfold Payload.readWith
  split
  · refine ((CodeBody.reads_readWith h min p).map code).readsAll.sound ?_
    rintro _ _ ⟨body, rfl, codes, hs⟩
    exact ⟨codes, rfl, hs⟩
  · exact flat (readsFlat_index _ fun _ => ⟨trivial, rfl⟩) fun _ => rfl
  · exact flat (readsFlat_indices _ .exceptions fun _ => ⟨trivial, rfl⟩) fun _ => rfl
  · exact flat (readsFlat_index _ fun _ => ⟨trivial, rfl⟩) fun _ => rfl
  · exact flat (readsFlat_index _ fun _ => ⟨trivial, rfl⟩) fun _ => rfl
  · exact flat readsFlat_lines fun _ => rfl
  · exact flat (readsFlat_locals _ fun _ => ⟨trivial, rfl⟩) fun _ => rfl
  · exact flat (readsFlat_locals _ fun _ => ⟨trivial, rfl⟩) fun _ => rfl
  · exact flat readsFlat_frames fun _ => rfl
  · exact flat readsFlat_innerClasses fun _ => rfl
  · refine readsAll_enclosingMethod.sound ?_
    rintro _ _ ⟨owner, method, rfl, hr, he⟩
    exact spellsWith_flat rfl hr he
  · exact flat readsFlat_bootstrapMethods fun _ => rfl
  · exact flat (readsFlat_index _ fun _ => ⟨trivial, rfl⟩) fun _ => rfl
  · exact flat (readsFlat_indices _ .nestMembers fun _ => ⟨trivial, rfl⟩) fun _ => rfl
  · exact flat (readsFlat_indices _ .permittedSubclasses fun _ => ⟨trivial, rfl⟩) fun _ => rfl
  · exact flat readsFlat_parameters fun _ => rfl
  · refine (readsAll_empty (show deprecated.IsReadable from trivial) rfl).sound ?_
    rintro _ _ ⟨rfl, hr, he⟩
    exact spellsWith_flat rfl hr he
  · refine (readsAll_empty (show synthetic.IsReadable from trivial) rfl).sound ?_
    rintro _ _ ⟨rfl, hr, he⟩
    exact spellsWith_flat rfl hr he
  · exact flat (readsFlat_annotations _ fun _ => ⟨Iff.rfl, rfl⟩) fun _ => rfl
  · exact flat (readsFlat_annotations _ fun _ => ⟨Iff.rfl, rfl⟩) fun _ => rfl
  · exact flat (readsFlat_parameterAnnotations _ fun _ => ⟨Iff.rfl, rfl⟩) fun _ => rfl
  · exact flat (readsFlat_parameterAnnotations _ fun _ => ⟨Iff.rfl, rfl⟩) fun _ => rfl
  · exact flat readsFlat_default fun _ => rfl
  · refine ((reads_spellsTable (Component.reads_readWith h min) Component.length_ge).map
      record).readsAll.sound ?_
    rintro _ _ ⟨components, rfl, codes, hs⟩
    exact ⟨codes, rfl, hs⟩
  · exact flat readsFlat_debug fun _ => rfl
  · refine ((readsAll_rest.map raw).record _).sound ?_
    rintro _ _ ⟨bytes, rfl, rfl⟩
    refine ⟨[], fun payload e => ?_, rfl, rfl⟩
    cases payload <;> cases e <;> contradiction

theorem Payload.run_readWith {p : Pool} {name : String} {payload : Payload} {codes : List Bytes}
    {used : Bytes} (hs : payload.SpellsWith p spell name codes used) (offset : Nat) :
    Payload.readWith p inner name ⟨used, offset, .off⟩ =
      .ok payload ⟨[], offset + used.length, .off⟩ := by
  cases payload with
  | code body =>
    obtain ⟨rfl, hs⟩ := hs
    exact ((CodeBody.reads_readWith h min p).map code).readsAll.run ⟨body, rfl, codes, hs⟩ offset
  | constantValue i =>
    exact run_flat (readsFlat_index constantValue fun _ => ⟨trivial, rfl⟩) rfl rfl hs offset
  | exceptions classes =>
    exact run_flat (readsFlat_indices exceptions .exceptions fun _ => ⟨trivial, rfl⟩)
      rfl rfl hs offset
  | sourceFile i =>
    exact run_flat (readsFlat_index sourceFile fun _ => ⟨trivial, rfl⟩) rfl rfl hs offset
  | signature i =>
    exact run_flat (readsFlat_index signature fun _ => ⟨trivial, rfl⟩) rfl rfl hs offset
  | lineNumberTable lines => exact run_flat readsFlat_lines rfl rfl hs offset
  | localVariableTable locals =>
    exact run_flat (readsFlat_locals localVariableTable fun _ => ⟨trivial, rfl⟩) rfl rfl hs offset
  | localVariableTypeTable locals =>
    exact run_flat (readsFlat_locals localVariableTypeTable fun _ => ⟨trivial, rfl⟩)
      rfl rfl hs offset
  | stackMapTable frames => exact run_flat readsFlat_frames rfl rfl hs offset
  | innerClasses classes => exact run_flat readsFlat_innerClasses rfl rfl hs offset
  | enclosingMethod owner method =>
    obtain ⟨hn, hr, -, he⟩ := hs
    cases hn
    exact readsAll_enclosingMethod.run ⟨owner, method, rfl, hr, he⟩ offset
  | bootstrapMethods methods => exact run_flat readsFlat_bootstrapMethods rfl rfl hs offset
  | nestHost i =>
    exact run_flat (readsFlat_index nestHost fun _ => ⟨trivial, rfl⟩) rfl rfl hs offset
  | nestMembers classes =>
    exact run_flat (readsFlat_indices nestMembers .nestMembers fun _ => ⟨trivial, rfl⟩)
      rfl rfl hs offset
  | permittedSubclasses classes =>
    exact run_flat (readsFlat_indices permittedSubclasses .permittedSubclasses
      fun _ => ⟨trivial, rfl⟩) rfl rfl hs offset
  | methodParameters parameters => exact run_flat readsFlat_parameters rfl rfl hs offset
  | deprecated =>
    obtain ⟨hn, hr, -, he⟩ := hs
    cases hn
    exact (readsAll_empty hr rfl).run ⟨rfl, hr, he⟩ offset
  | synthetic =>
    obtain ⟨hn, hr, -, he⟩ := hs
    cases hn
    exact (readsAll_empty hr rfl).run ⟨rfl, hr, he⟩ offset
  | visibleAnnotations annotations =>
    exact run_flat (readsFlat_annotations visibleAnnotations fun _ => ⟨Iff.rfl, rfl⟩)
      rfl rfl hs offset
  | invisibleAnnotations annotations =>
    exact run_flat (readsFlat_annotations invisibleAnnotations fun _ => ⟨Iff.rfl, rfl⟩)
      rfl rfl hs offset
  | visibleParameterAnnotations parameters =>
    exact run_flat (readsFlat_parameterAnnotations visibleParameterAnnotations
      fun _ => ⟨Iff.rfl, rfl⟩) rfl rfl hs offset
  | invisibleParameterAnnotations parameters =>
    exact run_flat (readsFlat_parameterAnnotations invisibleParameterAnnotations
      fun _ => ⟨Iff.rfl, rfl⟩) rfl rfl hs offset
  | annotationDefault value => exact run_flat readsFlat_default rfl rfl hs offset
  | record components =>
    obtain ⟨rfl, hs⟩ := hs
    exact ((reads_spellsTable (Component.reads_readWith h min) Component.length_ge).map
      record).readsAll.run ⟨components, rfl, codes, hs⟩ offset
  | sourceDebugExtension bytes => exact run_flat readsFlat_debug rfl rfl hs offset
  | raw bytes =>
    obtain ⟨hn, -, rfl⟩ := hs
    unfold Payload.readWith
    split
    · exact absurd rfl (hn (.code ⟨0, 0, [], [], []⟩))
    · exact absurd rfl (hn (.constantValue 0))
    · exact absurd rfl (hn (.exceptions []))
    · exact absurd rfl (hn (.sourceFile 0))
    · exact absurd rfl (hn (.signature 0))
    · exact absurd rfl (hn (.lineNumberTable []))
    · exact absurd rfl (hn (.localVariableTable []))
    · exact absurd rfl (hn (.localVariableTypeTable []))
    · exact absurd rfl (hn (.stackMapTable []))
    · exact absurd rfl (hn (.innerClasses []))
    · exact absurd rfl (hn (.enclosingMethod 0 0))
    · exact absurd rfl (hn (.bootstrapMethods []))
    · exact absurd rfl (hn (.nestHost 0))
    · exact absurd rfl (hn (.nestMembers []))
    · exact absurd rfl (hn (.permittedSubclasses []))
    · exact absurd rfl (hn (.methodParameters []))
    · exact absurd rfl (hn .deprecated)
    · exact absurd rfl (hn .synthetic)
    · exact absurd rfl (hn (.visibleAnnotations []))
    · exact absurd rfl (hn (.invisibleAnnotations []))
    · exact absurd rfl (hn (.visibleParameterAnnotations []))
    · exact absurd rfl (hn (.invisibleParameterAnnotations []))
    · exact absurd rfl (hn (.annotationDefault (.classInfo 0)))
    · exact absurd rfl (hn (.record []))
    · exact absurd rfl (hn (.sourceDebugExtension []))
    · exact ((readsAll_rest.map raw).record _).run ⟨_, rfl, rfl⟩ offset

theorem Payload.readsAll_readWith (p : Pool) (name : String) :
    ReadsAll (Payload.readWith p inner name) fun payload used =>
      ∃ codes, payload.SpellsWith p spell name codes used := by
  refine .intro (Payload.sound_readWith h min p name) ?_
  rintro payload used offset ⟨codes, hs⟩
  exact Payload.run_readWith h min hs offset

end Reading

/-! ## Nesting -/

section Nesting

variable {inner inner' : Attribute → List Bytes → Bytes → Prop} {codes : List Bytes}
  {used : Bytes}

theorem SpellsTable.mono {α : Type} {spell spell' : α → List Bytes → Bytes → Prop} {as : List α}
    (h : SpellsTable spell as codes used)
    (imp : ∀ a ps u, u.length ≤ used.length → spell a ps u → spell' a ps u) :
    SpellsTable spell' as codes used := by
  obtain ⟨hl, v, hv, rfl⟩ := h
  exact ⟨hl, v, hv.mono fun a ps u hu => imp a ps u (by simp; omega), rfl⟩

theorem CodeBody.SpellsWith.mono {p : Pool} {body : CodeBody}
    (h : body.SpellsWith p inner codes used)
    (imp : ∀ a ps u, u.length ≤ used.length → inner a ps u → inner' a ps u) :
    body.SpellsWith p inner' codes used := by
  obtain ⟨maxStack, maxLocals, instructions, handlers, attributes⟩ := body
  obtain ⟨code, rest, v, hlen, hd, hh, hv, rfl, rfl⟩ := h
  have hinner := hv.mono fun a ps u hu => imp a ps u (by simp; omega)
  exact ⟨code, rest, v, hlen, hd, hh, hinner, rfl, rfl⟩

theorem Component.SpellsWith.mono {c : Component} (h : c.SpellsWith inner codes used)
    (imp : ∀ a ps u, u.length ≤ used.length → inner a ps u → inner' a ps u) :
    c.SpellsWith inner' codes used := by
  obtain ⟨name, descriptor, attributes⟩ := c
  obtain ⟨v, hv, rfl⟩ := h
  exact ⟨v, hv.mono fun a ps u hu => imp a ps u (by simp; omega), rfl⟩

theorem Payload.SpellsWith.mono {p : Pool} {name : String} {payload : Payload}
    (h : payload.SpellsWith p inner name codes used)
    (imp : ∀ a ps u, u.length ≤ used.length → inner a ps u → inner' a ps u) :
    payload.SpellsWith p inner' name codes used := by
  cases payload with
  | code body => exact ⟨h.1, h.2.mono imp⟩
  | record components =>
    refine ⟨h.1, h.2.mono fun c ps u hu hc => ?_⟩
    exact Component.SpellsWith.mono hc fun a qs w hw => imp a qs w (by omega)
  | _ => exact h

end Nesting

namespace Attribute

theorem length_ge_of_spells {p : Pool} {depth : Nat} (a : Attribute) (codes : List Bytes)
    (used : Bytes) (h : a.Spells p depth codes used) : 6 ≤ used.length := by
  obtain ⟨index, payload⟩ := a
  cases depth with
  | zero => exact h.elim
  | succ depth =>
    obtain ⟨name, v, -, -, -, rfl⟩ := h
    simp
    omega

/-- No more depth is needed than there are bytes. -/
theorem Spells.of_length_le {p : Pool} {depth depth' : Nat} {a : Attribute} {codes : List Bytes}
    {used : Bytes} (h : a.Spells p depth codes used) (hl : used.length ≤ depth') :
    a.Spells p depth' codes used := by
  have hmin := length_ge_of_spells a codes used h
  induction depth generalizing depth' a codes used with
  | zero => exact h.elim
  | succ depth ih =>
    obtain ⟨index, payload⟩ := a
    obtain ⟨name, v, hn, hv, hs, rfl⟩ := h
    simp only [List.length_append, Bytes.length_ofU16, Bytes.length_ofU32] at hl
    cases depth' with
    | zero => omega
    | succ depth' =>
      refine ⟨name, v, hn, hv, hs.mono fun a ps u hu ha => ?_, rfl⟩
      exact ih ha (by omega) (length_ge_of_spells a ps u ha)

theorem reads_read (p : Pool) (depth : Nat) :
    Reads (Attribute.read p depth) fun a used => ∃ codes, a.Spells p depth codes used := by
  induction depth with
  | zero =>
    intro bytes offset a c
    constructor
    · intro h
      cases h
    · rintro ⟨used, rest, ⟨codes, h⟩, -⟩
      exact h.elim
  | succ depth ih =>
    unfold Attribute.read
    refine (reads_u16.bind fun index _ _ => reads_u32.bind fun length _ _ =>
      Reads.offset fun start => (reads_take length.toNat).bind fun bytes _ _ =>
      (reads_ofExcept (p.text index)).bind fun name _ _ =>
      (Payload.readsAll_readWith ih length_ge_of_spells p name).framed bytes start
        (.inAttribute name) (Attribute.mk index)
        fun unread stop => .malformedAttribute name (.unread unread stop)).congr
      fun ⟨index, payload⟩ used => ?_
    constructor
    · rintro ⟨_, _, _, rfl, ⟨length, _, _, rfl, ⟨_, v, _, ⟨rfl, hl⟩, ⟨name, _, _, ⟨hn, rfl⟩,
        ⟨⟨_, e, codes, hs⟩, rfl⟩, rfl⟩, rfl⟩, rfl⟩, rfl⟩
      cases e
      have hlt := length.toNat_lt
      refine ⟨codes, name, v, hn, by omega, hs, ?_⟩
      rw [hl, UInt32.ofNat_toNat]
      simp
    · rintro ⟨codes, name, v, hn, hl, hs, rfl⟩
      have hlen : (UInt32.ofNat v.length).toNat = v.length := by
        rw [UInt32.toNat_ofNat']
        omega
      simp only [List.append_assoc]
      refine ⟨index, _, _, rfl, ?_, rfl⟩
      refine ⟨UInt32.ofNat v.length, _, _, rfl, ?_, rfl⟩
      refine ⟨v, _, [], ⟨rfl, hlen.symm⟩, ?_, (List.append_nil v).symm⟩
      refine ⟨name, [], [], ⟨hn, rfl⟩, ?_, rfl⟩
      exact ⟨⟨payload, rfl, codes, hs⟩, rfl⟩

end Attribute

end JvmClass
