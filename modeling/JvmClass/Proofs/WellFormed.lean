import JvmClass.Proofs.Edit.Copies
import JvmClass.Proofs.Relocation.ReadBack

/-!
# Classes that were read are well-formed

What code that works on a class may count on once the class was read (`ClassFile.WellFormed`). It
is established in many places of the reader: pool entries as they are read and when all of them
are there, operands by the decoder, names of attributes wherever an attribute is read. All of it
is part of what is spelled, so `ClassFile.wellFormed_of_read` takes it from there. Attributes are
looked at at any depth (`Attribute.Inside`).
-/

namespace JvmClass

/-! ## Attributes at any depth -/

/-- `a` is one of the attributes, or stands in the code or in a record component of one that is. -/
inductive Attribute.Inside (a : Attribute) : List Attribute → Prop
  | here {attributes : List Attribute} (h : a ∈ attributes) : Inside a attributes
  | code {attributes : List Attribute} {name : UInt16} {body : CodeBody}
    (h : ⟨name, .code body⟩ ∈ attributes) (ha : Inside a body.attributes) : Inside a attributes
  | record {attributes : List Attribute} {name : UInt16} {components : List Component}
    {component : Component} (h : ⟨name, .record components⟩ ∈ attributes)
    (hc : component ∈ components) (ha : Inside a component.attributes) : Inside a attributes

/-- The class holds the attribute, on its own, for a member, or at any depth inside one of these. -/
def ClassFile.Contains (c : ClassFile) (a : Attribute) : Prop :=
  a.Inside c.attributes ∨ ∃ m, (m ∈ c.fields ∨ m ∈ c.methods) ∧ a.Inside m.attributes

theorem Attribute.Inside.spells {p : Pool} {a : Attribute} {attributes : List Attribute}
    (ha : a.Inside attributes) {depth : Nat} {codes : List Bytes} {used : Bytes}
    (h : SpellsTable (Attribute.Spells p depth) attributes codes used) :
    ∃ depth codes used, a.Spells p depth codes used := by
  induction ha generalizing depth codes used with
  | here hm =>
    obtain ⟨codes, used, hs⟩ := h.exists_of_mem a hm
    exact ⟨depth, codes, used, hs⟩
  | @code _ _ body hm _ ih =>
    obtain ⟨codes, used, hs⟩ := h.exists_of_mem _ hm
    cases depth with
    | zero => exact hs.elim
    | succ depth =>
      obtain ⟨_, _, -, -, ⟨-, hbody⟩, -⟩ := hs
      obtain ⟨maxStack, maxLocals, instructions, handlers, attributes⟩ := body
      obtain ⟨code, rest, v, -, -, -, hattributes, -⟩ := hbody
      exact ih hattributes
  | @record _ _ _ component hm hc _ ih =>
    obtain ⟨codes, used, hs⟩ := h.exists_of_mem _ hm
    cases depth with
    | zero => exact hs.elim
    | succ depth =>
      obtain ⟨_, _, -, -, ⟨-, hcomponents⟩, -⟩ := hs
      obtain ⟨codes, used, hcomponent⟩ := hcomponents.exists_of_mem _ hc
      obtain ⟨name, descriptor, attributes⟩ := component
      obtain ⟨v, hattributes, -⟩ := hcomponent
      exact ih hattributes

theorem ClassFile.Contains.spells {c : ClassFile} {a : Attribute} (ha : c.Contains a) {depth : Nat}
    {codes : List Bytes} {used : Bytes} (h : c.SpellsBody depth codes used) :
    ∃ depth codes used, a.Spells c.pool depth codes used := by
  obtain ⟨_, _, _, _, _, _, -, hfields, hmethods, hattributes, -, -⟩ := h
  rcases ha with ha | ⟨m, hm | hm, ha⟩
  · exact ha.spells hattributes
  · obtain ⟨codes, used, v, hv, -⟩ := hfields.exists_of_mem m hm
    exact ha.spells hv
  · obtain ⟨codes, used, v, hv, -⟩ := hmethods.exists_of_mem m hm
    exact ha.spells hv

/-- An attribute that holds code is spelled with its code array in front. -/
theorem Attribute.Spells.exists_code {p : Pool} {depth : Nat} {name : UInt16} {body : CodeBody}
    {codes : List Bytes} {used : Bytes}
    (h : Attribute.Spells p depth ⟨name, .code body⟩ codes used) :
    ∃ code rest, codes = code :: rest ∧ Instruction.decode p code = .ok body.instructions := by
  cases depth with
  | zero => exact h.elim
  | succ depth =>
    obtain ⟨_, _, -, -, ⟨-, hbody⟩, -⟩ := h
    obtain ⟨maxStack, maxLocals, instructions, handlers, attributes⟩ := body
    obtain ⟨code, rest, _, -, hdecode, -, -, hcodes, -⟩ := hbody
    exact ⟨code, rest, hcodes, hdecode⟩

/-! ## What holds of the parts -/

/-- A compact frame has a small difference, and few locals are dropped or added at once. -/
def Frame.WellFormed : Frame → Prop
  | same d | oneItem d _ => d.toNat < 64
  | chop _ count => 1 ≤ count.toNat ∧ count.toNat ≤ 3
  | append _ locals => 1 ≤ locals.length ∧ locals.length ≤ 3
  | sameExtended _ | oneItemExtended .. | full .. => True

mutual

/-- How many lists and annotations stand around the innermost value. -/
def ElementValue.nesting : ElementValue → Nat
  | .const .. | .enum .. | .classInfo _ => 0
  | .nested content => content.nesting + 1
  | .array values => valuesNesting values + 1

def AnnotationInfo.nesting : AnnotationInfo → Nat
  | ⟨_, elements⟩ => elementsNesting elements

def valuesNesting : List ElementValue → Nat
  | [] => 0
  | value :: rest => max value.nesting (valuesNesting rest)

def elementsNesting : List Element → Nat
  | [] => 0
  | ⟨_, value⟩ :: rest => max value.nesting (elementsNesting rest)

end

/-- The element values of a payload, those inside others apart. -/
def Payload.elementValues : Payload → List ElementValue
  | visibleAnnotations annotations | invisibleAnnotations annotations =>
    annotations.flatMap fun a => a.elements.map Element.value
  | visibleParameterAnnotations parameters | invisibleParameterAnnotations parameters =>
    parameters.flatten.flatMap fun a => a.elements.map Element.value
  | annotationDefault value => [value]
  | _ => []

/-- Code whose jumps and operands make sense in the pool. -/
structure CodeBody.WellFormed (p : Pool) (body : CodeBody) : Prop where
  targets : ∀ i ∈ body.instructions, ∀ target ∈ i.targets,
    target.toNat ∈ Code.startsFrom 0 body.instructions
  operands : ∀ i ∈ body.instructions, ∀ index, i.poolIndex? = some index →
    ∃ role, i.opcode.role? = some role ∧ p.Holds role index
  tableSwitch : ∀ default low high targets,
    .tableSwitch default low high targets ∈ body.instructions →
      (targets.length : Int) = high.toInt - low.toInt + 1
  implicitSlot : ∀ o slot wide n, .access o slot wide ∈ body.instructions →
    o.implicitSlot? = some n → slot.toNat = n ∧ wide = false

/-- An attribute whose payload is of the kind that its name tells. -/
structure Attribute.WellFormed (p : Pool) (a : Attribute) : Prop where
  name : ∃ name, p.text a.name = .ok name ∧
    (∀ known, a.payload.name? = some known → known = name) ∧
    ∀ bytes, a.payload = .raw bytes → ∀ payload : Payload, payload.name? ≠ some name
  code : ∀ body, a.payload = .code body → body.WellFormed p
  frames : ∀ frames, a.payload = .stackMapTable frames → ∀ frame ∈ frames, frame.WellFormed
  nesting : ∀ value ∈ a.payload.elementValues, value.nesting ≤ 256

/-- The entry is a class, and its name is text. -/
def Pool.IsClassAt (p : Pool) (index : UInt16) : Prop :=
  ∃ name text, p.get? index = some (.classRef name) ∧ p.get? name = some (.utf8 text)

/-- What the rest of the library counts on. -/
structure ClassFile.WellFormed (c : ClassFile) : Prop where
  poolSize : c.pool.size ≤ 65534
  firstSlot : c.pool.slots[0]? ≠ some .unusable
  secondSlot : ∀ k, c.pool.slots[k + 1]? = some .unusable ↔
    ∃ e, c.pool.slots[k]? = some e ∧ e.slots = 2
  references : ∀ i e, c.pool.get? i = some e →
    ∃ roles, e.roles? = some roles ∧ List.Forall₂ c.pool.Holds roles e.references
  thisClass : c.pool.IsClassAt c.thisClass
  superClass : c.superClass ≠ 0 → c.pool.IsClassAt c.superClass
  bootstrap : ∀ i e method, c.pool.get? i = some e → e.bootstrap? = some method →
    method.toNat < c.bootstrapMethods.length
  acyclic : c.pool.IsAcyclic c.bootstrapMethods.toArray
  attributes : ∀ a, c.Contains a → a.WellFormed c.pool

/-! ## Pools -/

theorem Pool.isClassAt_of_className {p : Pool} {index : UInt16} {name : String}
    (h : p.className index = .ok name) : p.IsClassAt index := by
  obtain ⟨c, hc, h⟩ := exceptBind_eq_ok.1 h
  cases c with
  | classRef i => exact ⟨i, name, get_eq_ok.1 hc, text_eq_ok.1 h⟩
  | _ => cases h

theorem Pool.references_of_validate {p : Pool} (hp : p.size < 0x10000)
    (h : p.validate = .ok ()) {i : UInt16} {e : Constant} (he : p.get? i = some e) :
    ∃ roles, e.roles? = some roles ∧ List.Forall₂ p.Holds roles e.references := by
  by_cases hu : e.isUnusable = true
  · cases e with
    | unusable => exact ⟨[], rfl, .nil⟩
    | _ => cases hu
  · exact (validate_eq_ok hp).1 h i e he (by simpa using hu)

/-! ## Payloads -/

theorem Instruction.Fits.operand {p : Pool} {i : Instruction} (h : i.Fits p) {index : UInt16}
    (hi : i.poolIndex? = some index) : ∃ role, i.opcode.role? = some role ∧ p.Holds role index := by
  have hrole : ∃ role, i.opcode.role? = some role := by
    have hs := h.1
    cases i with
    | constant o j => rcases hs with rfl | rfl | rfl <;> exact ⟨_, rfl⟩
    | field o j => rcases hs with rfl | rfl | rfl | rfl <;> exact ⟨_, rfl⟩
    | invoke o j => rcases hs with rfl | rfl | rfl <;> exact ⟨_, rfl⟩
    | typed o j => rcases hs with rfl | rfl | rfl | rfl <;> exact ⟨_, rfl⟩
    | invokeInterface | invokeDynamic | multiNewArray => exact ⟨_, rfl⟩
    | _ => cases hi
  obtain ⟨role, hr⟩ := hrole
  exact ⟨role, hr, h.2 index role hi hr⟩

theorem Opcode.implicitSlot?_lt {o : Opcode} {n : Nat} (h : o.implicitSlot? = some n) : n < 4 := by
  unfold implicitSlot? at h
  dsimp only at h
  split at h
  · cases h
    omega
  · split at h
    · cases h
      omega
    · cases h

theorem CodeBody.wellFormed_of_decode {p : Pool} {code : Bytes} {body : CodeBody}
    (h : Instruction.decode p code = .ok body.instructions) : body.WellFormed p := by
  obtain ⟨hs, ht⟩ := Code.decode_eq_ok_iff.1 h
  have hfits := hs.fits
  refine ⟨ht, fun i hi index => (hfits i hi).operand, fun default low high targets hm => ?_,
    fun o slot wide n hm hn => ?_⟩
  · obtain ⟨⟨hle, hlen⟩, -⟩ := hfits _ hm
    have hle' : low.toInt ≤ high.toInt := Int32.le_iff_toInt_le.1 hle
    omega
  · obtain ⟨⟨-, hslot⟩, -⟩ := hfits _ hm
    obtain ⟨rfl, hw⟩ := hslot n hn
    have hlt := Opcode.implicitSlot?_lt hn
    exact ⟨toNat_unit (by omega), hw⟩

theorem Frame.wellFormed_of_encode {frame : Frame} (hr : frame.IsReadable) {used : Bytes}
    (h : frame.encode = .ok used) : frame.WellFormed := by
  cases frame with
  | same d | oneItem d item => exact hr
  | chop d count =>
    rw [encode] at h
    split at h
    · rename_i hfew
      exact fewLocals_iff.1 hfew
    · cases h
  | append d locals =>
    rw [encode] at h
    split at h
    · rename_i hfew
      exact fewLocals_iff.1 hfew
    · cases h
  | _ => trivial

theorem valuesNesting_le {n : Nat} {values : List ElementValue}
    (h : ∀ v ∈ values, v.nesting ≤ n) : valuesNesting values ≤ n := by
  induction values with
  | nil => simp [valuesNesting]
  | cons v rest ih =>
    obtain ⟨hv, hrest⟩ := List.forall_mem_cons.1 h
    have := ih hrest
    rw [valuesNesting]
    omega

theorem elementsNesting_le {n : Nat} {elements : List Element}
    (h : ∀ e ∈ elements, e.value.nesting ≤ n) : elementsNesting elements ≤ n := by
  induction elements with
  | nil => simp [elementsNesting]
  | cons e rest ih =>
    obtain ⟨he, hrest⟩ := List.forall_mem_cons.1 h
    have := ih hrest
    obtain ⟨name, value⟩ := e
    rw [elementsNesting]
    dsimp only at he
    omega

theorem ElementValue.IsReadable.nesting_le {depth : Nat} {v : ElementValue}
    (h : v.IsReadable depth) : v.nesting ≤ depth := by
  induction depth generalizing v with
  | zero =>
    cases v with
    | nested | array => exact h.elim
    | _ => simp [nesting]
  | succ depth ih =>
    cases v with
    | nested content =>
      obtain ⟨type, elements⟩ := content
      rw [nesting, AnnotationInfo.nesting]
      exact Nat.succ_le_succ (elementsNesting_le fun e he => ih (h e he))
    | array values =>
      rw [nesting]
      exact Nat.succ_le_succ (valuesNesting_le fun v hv => ih (h v hv))
    | _ => simp [nesting]

theorem Payload.IsReadable.nesting_le {payload : Payload} (h : payload.IsReadable)
    {value : ElementValue} (hv : value ∈ payload.elementValues) : value.nesting ≤ 256 := by
  have annotated {annotations : List AnnotationInfo}
      (h : ∀ a ∈ annotations, a.IsReadable maxElementNesting)
      (hv : value ∈ annotations.flatMap fun a => a.elements.map Element.value) :
      value.nesting ≤ 256 := by
    obtain ⟨a, ha, hv⟩ := List.mem_flatMap.1 hv
    obtain ⟨e, he, rfl⟩ := List.mem_map.1 hv
    exact (h a ha e he).nesting_le
  cases payload with
  | visibleAnnotations annotations | invisibleAnnotations annotations => exact annotated h hv
  | visibleParameterAnnotations parameters | invisibleParameterAnnotations parameters =>
    refine annotated (fun a ha => ?_) hv
    obtain ⟨annotations, hm, ha⟩ := List.mem_flatten.1 ha
    exact h annotations hm a ha
  | annotationDefault v =>
    obtain rfl : value = v := by simpa [elementValues] using hv
    exact ElementValue.IsReadable.nesting_le h
  | _ => simp [elementValues] at hv

theorem Attribute.Spells.wellFormed {p : Pool} {a : Attribute} {depth : Nat} {codes : List Bytes}
    {used : Bytes} (h : a.Spells p depth codes used) : a.WellFormed p := by
  cases depth with
  | zero => exact h.elim
  | succ depth =>
    obtain ⟨index, payload⟩ := a
    obtain ⟨name, v, hname, -, hs, -⟩ := h
    cases payload with
    | code body =>
      obtain ⟨rfl, hbody⟩ := hs
      refine ⟨⟨_, hname, fun known e => (Option.some.inj e).symm, nofun⟩, ?_, nofun, nofun⟩
      rintro _ ⟨⟩
      obtain ⟨maxStack, maxLocals, instructions, handlers, attributes⟩ := body
      obtain ⟨code, _, _, -, hd, -⟩ := hbody
      exact CodeBody.wellFormed_of_decode hd
    | record components =>
      obtain ⟨rfl, -⟩ := hs
      exact ⟨⟨_, hname, fun known e => (Option.some.inj e).symm, nofun⟩, nofun, nofun, nofun⟩
    | raw bytes => exact ⟨⟨name, hname, nofun, fun _ _ => hs.1⟩, nofun, nofun, nofun⟩
    | stackMapTable frames =>
      obtain ⟨hn, hr, -, he⟩ := hs
      refine ⟨⟨name, hname, fun known e => ?_, nofun⟩, nofun, ?_, nofun⟩
      · exact Option.some.inj (e.symm.trans hn)
      · rintro _ ⟨⟩ frame hm
        obtain ⟨-, u, hu, -⟩ := Table.encodeM_eq_ok.1 he
        obtain ⟨w, hw⟩ := concatM_eq_ok hu frame hm
        exact Frame.wellFormed_of_encode (hr frame hm) hw
    | _ =>
      obtain ⟨hn, hr, -, -⟩ := hs
      exact ⟨⟨name, hname, fun known e => Option.some.inj (e.symm.trans hn), nofun⟩, nofun, nofun,
        fun value hv => hr.nesting_le hv⟩

/-! ## Classes -/

/-- What was read is well-formed. -/
theorem ClassFile.wellFormed_of_read {bytes : Bytes} {c : ClassFile} (h : read bytes = .ok c) :
    c.WellFormed := by
  obtain ⟨texts, codes, hvalid, pool, body, hpool, hbody, -⟩ := read_eq_ok_iff.1 h
  obtain ⟨hsize, entries, hentries, hreadable⟩ := hpool.isReadable
  have hlt : c.pool.size < 0x10000 := by omega
  obtain ⟨hbound, -, hacyclic⟩ := (Pool.validateBootstrap_eq_ok hlt).1 hvalid.bootstrap
  obtain ⟨hfirst, hsecond⟩ := Pool.spread_second fun e he =>
    Constant.isUnusable_of_isReadable (hreadable e he)
  rw [← hentries] at hfirst hsecond
  simp only [Array.getElem?_toList] at hfirst hsecond
  obtain ⟨name, hname⟩ := hvalid.thisClass
  refine ⟨by omega, hfirst, hsecond, fun i e => Pool.references_of_validate hlt hvalid.pool,
    Pool.isClassAt_of_className hname, fun hs => ?_, hbound,
    Pool.isAcyclic_of_checkAcyclic hlt hacyclic, fun a ha => ?_⟩
  · obtain ⟨name, hname⟩ := hvalid.superClass hs
    exact Pool.isClassAt_of_className hname
  · obtain ⟨depth, codes, used, hs⟩ := ha.spells hbody
    exact hs.wellFormed

theorem ClassFile.wellFormed_loadClass :
    read Draft.withLoad = .ok Draft.loadClass ∧ Draft.loadClass.WellFormed :=
  ⟨Draft.read_withLoad, wellFormed_of_read Draft.read_withLoad⟩

end JvmClass
