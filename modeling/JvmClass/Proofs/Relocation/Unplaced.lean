import JvmClass.Proofs.Edit.Numbering
import JvmClass.Proofs.Relocation.Movement

/-!
# Code without its layout

Where an instruction stands depends on how long those before it are, and that depends on the pool: a
constant with a large index takes a longer load. `unplaced` takes both out of a class. Targets and
tables name instructions by their index instead of their offset, and constants are loaded by the
short load. What is left of two copies of one thing is alike, whatever pools they were made for
(`Attribute.AllCopied.alike`), if both are short enough to have offsets.
-/

namespace JvmClass

/-! ## Positions -/

namespace Code

/-- The index of the boundary at an offset. What is no boundary has an index behind all others. -/
def indexAt (code : List Instruction) (offset : Nat) : Nat := (offsets code).toList.idxOf offset

theorem indexAt_eq {code : List Instruction} {k x : Nat} (h : (offsets code)[k]? = some x) :
    indexAt code x = k := by
  have hnodup : (offsets code).toList.Nodup := (pairwise_offsets code).imp Nat.ne_of_lt
  rw [← Array.getElem?_toList] at h
  obtain ⟨hlt, rfl⟩ := List.getElem?_eq_some_iff.1 h
  exact hnodup.idxOf_getElem k hlt

def unplaceTarget (code : List Instruction) (target : UInt32) : UInt32 :=
  UInt32.ofNat (indexAt code target.toNat)

end Code

/-- The place of an offset into code. Outside of code, offsets stay as they are. -/
def unplaceOffset (code? : Option (List Instruction)) (offset : UInt16) : UInt16 :=
  match code? with
  | some code => UInt16.ofNat (Code.indexAt code offset.toNat)
  | none => offset

/-! ## Parts of code -/

/-- The short load in place of the long one. -/
def Opcode.narrowed : Opcode → Opcode
  | .ldcW => .ldc
  | o => o

def Instruction.unplaced (code : List Instruction) : Instruction → Instruction
  | .constant o i => .constant o.narrowed i
  | .branch o t => .branch o (Code.unplaceTarget code t)
  | .tableSwitch d low high ts =>
    .tableSwitch (Code.unplaceTarget code d) low high (ts.map (Code.unplaceTarget code))
  | .lookupSwitch d pairs =>
    .lookupSwitch (Code.unplaceTarget code d)
      (pairs.map fun p => (p.1, Code.unplaceTarget code p.2))
  | i => i

def Handler.unplaced (code : List Instruction) (h : Handler) : Handler :=
  ⟨unplaceOffset (some code) h.start, unplaceOffset (some code) h.stop,
    unplaceOffset (some code) h.handler, h.catchType⟩

section Tables

variable (code? : Option (List Instruction))

def LineNumber.unplaced (l : LineNumber) : LineNumber := ⟨unplaceOffset code? l.start, l.line⟩

/-- The length counts instructions, too, and none if the end comes before the start. -/
def LocalVariable.unplaced (v : LocalVariable) : LocalVariable :=
  match code? with
  | some code =>
    let first := Code.indexAt code v.start.toNat
    { v with
      start := UInt16.ofNat first
      length := UInt16.ofNat (Code.indexAt code (v.start + v.length).toNat - first) }
  | none => v

def VerificationType.unplaced : VerificationType → VerificationType
  | .uninitialized offset => .uninitialized (unplaceOffset code? offset)
  | t => t

/-- The frame with its place instead of its distance from the frame before it. -/
def Frame.unplaced (frame : Frame) (offset : UInt16) : Frame :=
  match frame with
  | .same _ => .same (unplaceOffset code? offset)
  | .sameExtended _ => .sameExtended (unplaceOffset code? offset)
  | .oneItem _ t => .oneItem (unplaceOffset code? offset) (t.unplaced code?)
  | .oneItemExtended _ t => .oneItemExtended (unplaceOffset code? offset) (t.unplaced code?)
  | .chop _ count => .chop (unplaceOffset code? offset) count
  | .append _ ts =>
    .append (unplaceOffset code? offset) (ts.map (VerificationType.unplaced code?))
  | .full _ ts us =>
    .full (unplaceOffset code? offset) (ts.map (VerificationType.unplaced code?))
      (us.map (VerificationType.unplaced code?))

/-- Frames at offsets, which are taken modulo `2 ^ 16`. -/
def Frame.unplaceAll (frames : List Frame) (offsets : List Nat) : List Frame :=
  List.zipWith (fun frame offset => frame.unplaced code? (UInt16.ofNat offset)) frames offsets

end Tables

/-! ## Attributes -/

mutual

/-- The attribute without the layout of the code it is about and of all code inside it. -/
def Attribute.unplaced (code? : Option (List Instruction)) : Attribute → Attribute
  | ⟨name, payload⟩ => ⟨name, payload.unplaced code?⟩

def Payload.unplaced (code? : Option (List Instruction)) : Payload → Payload
  | .code body => .code body.unplaced
  | .lineNumberTable lines => .lineNumberTable (lines.map (LineNumber.unplaced code?))
  | .localVariableTable locals => .localVariableTable (locals.map (LocalVariable.unplaced code?))
  | .localVariableTypeTable locals =>
    .localVariableTypeTable (locals.map (LocalVariable.unplaced code?))
  | .stackMapTable frames => .stackMapTable (Frame.unplaceAll code? frames (Frame.offsets frames))
  | .record components => .record (unplaceComponents components)
  | payload => payload

def CodeBody.unplaced : CodeBody → CodeBody
  | ⟨maxStack, maxLocals, code, handlers, attributes⟩ =>
    ⟨maxStack, maxLocals, code.map (Instruction.unplaced code),
      handlers.map (Handler.unplaced code), unplaceAttributes (some code) attributes⟩

def unplaceAttributes (code? : Option (List Instruction)) : List Attribute → List Attribute
  | [] => []
  | a :: rest => a.unplaced code? :: unplaceAttributes code? rest

def unplaceComponents : List Component → List Component
  | [] => []
  | ⟨name, descriptor, attributes⟩ :: rest =>
    ⟨name, descriptor, unplaceAttributes none attributes⟩ :: unplaceComponents rest

end

mutual

/-- All code inside is short enough to have offsets. -/
def Attribute.IsCompact : Attribute → Prop
  | ⟨_, payload⟩ => payload.IsCompact

def Payload.IsCompact : Payload → Prop
  | .code body => body.IsCompact
  | .record components => CompactComponents components
  | _ => True

def CodeBody.IsCompact : CodeBody → Prop
  | ⟨_, _, code, _, attributes⟩ => Code.endFrom 0 code < 0x10000 ∧ AllCompact attributes

def AllCompact : List Attribute → Prop
  | [] => True
  | a :: rest => a.IsCompact ∧ AllCompact rest

def CompactComponents : List Component → Prop
  | [] => True
  | ⟨_, _, attributes⟩ :: rest => AllCompact attributes ∧ CompactComponents rest

end

def Member.unplaced (m : Member) : Member :=
  { m with attributes := unplaceAttributes none m.attributes }

def ClassFile.unplaced (c : ClassFile) : ClassFile :=
  { c with
    fields := c.fields.map Member.unplaced
    methods := c.methods.map Member.unplaced
    attributes := unplaceAttributes none c.attributes }

theorem unplaceAttributes_eq_map (code? : Option (List Instruction)) (as : List Attribute) :
    unplaceAttributes code? as = as.map (Attribute.unplaced code?) := by
  induction as with
  | nil => rfl
  | cons a as ih => rw [unplaceAttributes, ih, List.map_cons]

theorem allCompact_append {as bs : List Attribute} :
    AllCompact (as ++ bs) ↔ AllCompact as ∧ AllCompact bs := by
  induction as with
  | nil => exact (true_and _).symm ▸ Iff.rfl
  | cons a as ih => exact (and_congr_right fun _ => ih).trans and_assoc.symm

theorem Attribute.isKept_unplaced (code? : Option (List Instruction)) (a : Attribute) :
    (a.unplaced code?).isKept = a.isKept := by
  obtain ⟨name, payload⟩ := a
  cases payload <;> rfl

theorem bootstrapMethods?_unplaced (code? : Option (List Instruction)) (as : List Attribute) :
    Attribute.bootstrapMethods? (unplaceAttributes code? as) = Attribute.bootstrapMethods? as := by
  induction as with
  | nil => rfl
  | cons a as ih =>
    obtain ⟨name, payload⟩ := a
    rw [unplaceAttributes, Attribute.unplaced]
    unfold Attribute.bootstrapMethods? at ih ⊢
    rw [List.findSome?_cons, List.findSome?_cons, ih]
    cases payload <;> rfl

/-- The layout of a class is no part of what its entries stand for. -/
theorem Draft.importSource_unplaced (c : ClassFile) : importSource c.unplaced = importSource c := by
  rw [importSource, ClassFile.bootstrapMethods, ClassFile.unplaced, bootstrapMethods?_unplaced]
  rfl

/-! ## Places of copies -/

/-- The map is that of code to a copy of it that is short enough to have offsets, or there is no
code. -/
inductive Places : Option OffsetMap → Option (List Instruction) → Option (List Instruction) → Prop
  | outside : Places none none none
  | inside {code code' : List Instruction} (hend : Code.endFrom 0 code' < 0x10000)
    (hlen : code'.length = code.length) :
    Places (some ⟨Code.indexByOffset code, Code.offsets code'⟩) (some code) (some code')

theorem Code.Moves.indexAt_eq {code code' : List Instruction} {x y : Nat}
    (h : Moves code code' x y) : indexAt code' y = indexAt code x := by
  obtain ⟨k, hx, hy⟩ := h
  rw [Code.indexAt_eq hx, Code.indexAt_eq hy]

theorem Places.offset {moved : Option OffsetMap} {old? new? : Option (List Instruction)}
    (hp : Places moved old? new?) {x y : UInt16} (h : moveOffset moved x = .ok y) :
    unplaceOffset new? y = unplaceOffset old? x := by
  cases hp with
  | outside =>
    cases h
    rfl
  | inside hend hlen =>
    have hmoves := OffsetMap.moves_of_find hend hlen h
    rw [unplaceOffset, unplaceOffset, hmoves.indexAt_eq]

/-- Places and offsets come in one order. -/
theorem Code.le_iff_of_offsets {code : List Instruction} {k l x y : Nat}
    (hx : (offsets code)[k]? = some x) (hy : (offsets code)[l]? = some y) : x ≤ y ↔ k ≤ l := by
  constructor
  · intro hxy
    by_contra hlk
    have hlt := offsets_lt hy hx (Nat.lt_of_not_le hlk)
    omega
  · intro hkl
    rcases Nat.lt_or_eq_of_le hkl with hlt | rfl
    · exact Nat.le_of_lt (offsets_lt hx hy hlt)
    · exact Nat.le_of_eq (Option.some.inj (hx.symm.trans hy))

/-- A copied variable begins where the variable does and lasts as long. -/
theorem LocalVariable.Copied.unplaced_eq {S G : ImportSource} {moved : Option OffsetMap}
    {old? new? : Option (List Instruction)} (hp : Places moved old? new?) {v v' : LocalVariable}
    (h : v.Copied S G moved v') :
    v'.unplaced new? = { v.unplaced old? with name := v'.name, descriptor := v'.descriptor } := by
  obtain ⟨hrange, -, -, hslot⟩ := h
  cases hp with
  | outside =>
    obtain ⟨hstart, hlength⟩ := hrange
    dsimp only [LocalVariable.unplaced]
    rw [← hstart, ← hlength, ← hslot]
  | inside hend hlen =>
    obtain ⟨s, hs, hrange⟩ := exceptBind_eq_ok.1 hrange
    obtain ⟨t, ht, hrange⟩ := exceptBind_eq_ok.1 hrange
    obtain ⟨rfl, hlength⟩ := Prod.mk.inj (Except.ok.inj hrange)
    obtain ⟨k, hk, hs'⟩ := OffsetMap.moves_of_find hend hlen hs
    obtain ⟨l, hl, ht'⟩ := OffsetMap.moves_of_find hend hlen ht
    have horder := Code.le_iff_of_offsets hs' ht'
    rw [LocalVariable.unplaced, LocalVariable.unplaced, ← hslot, ← hlength]
    dsimp only
    rw [OffsetMap.start_add_length, Code.indexAt_eq hk, Code.indexAt_eq hl, Code.indexAt_eq hs']
    split
    · rw [Code.indexAt_eq ht']
    · rw [Code.indexAt_eq hs']
      have hlk : l ≤ k := by omega
      rw [Nat.sub_self, Nat.sub_eq_zero_of_le hlk]

/-! ## Two copies -/

theorem ImportSource.Denotes.ne_zero {S : ImportSource} {i : UInt16} {t : Symbol}
    (h : S.Denotes i t) : i ≠ 0 := by
  obtain ⟨c, -, -, hc, -⟩ := ImportSource.denotes_iff.1 h
  exact (Pool.get?_eq_some_iff.1 hc).1

section Copies

variable {S G H : ImportSource}

theorem SameSymbol.corresponds {i j k : UInt16} (h : SameSymbol S i G j) (h' : SameSymbol S i H k) :
    Corresponds G j H k := by
  obtain ⟨t, ht, hj⟩ := h
  obtain ⟨u, hu, hk⟩ := h'
  rw [hu.unique ht] at hk
  exact .of_denotes hj hk

theorem SameOptional.corresponds {i j k : UInt16} (h : SameOptional S i G j)
    (h' : SameOptional S i H k) : CorrespondsOptional G j H k := by
  unfold SameOptional at h h'
  by_cases hi : i = 0
  · rw [if_pos hi] at h h'
    rw [h, h']
    exact .zero
  · rw [if_neg hi] at h h'
    have hsame := h.corresponds h'
    obtain ⟨_, -, hj⟩ := h
    obtain ⟨_, -, hk⟩ := h'
    exact ⟨iff_of_false hj.ne_zero hk.ne_zero, hsame⟩

theorem forall₂_indices {is js ks : List UInt16} (h : List.Forall₂ (SameSymbol S · G ·) is js)
    (h' : List.Forall₂ (SameSymbol S · H ·) is ks) : List.Forall₂ (Corresponds G · H ·) js ks :=
  forall₂_of_forall₂ h h' fun _ _ _ => SameSymbol.corresponds

/-! ### Annotations and rows -/

mutual

theorem ElementValue.Copied.alike : (v : ElementValue) → {v' v'' : ElementValue} →
    v.Copied S G v' → v.Copied S H v'' → v'.Alike G H v''
  | .const .., _, _, .const h, .const h' => .const (h.corresponds h')
  | .enum .., _, _, .enum h k, .enum h' k' => .enum (h.corresponds h') (k.corresponds k')
  | .classInfo _, _, _, .classInfo h, .classInfo h' => .classInfo (h.corresponds h')
  | .nested a, _, _, .nested h, .nested h' => .nested (AnnotationInfo.Copied.alike a h h')
  | .array vs, _, _, .array h, .array h' => .array (alike_values vs h h')

theorem AnnotationInfo.Copied.alike : (a : AnnotationInfo) → {a' a'' : AnnotationInfo} →
    a.Copied S G a' → a.Copied S H a'' → a'.Alike G H a''
  | ⟨_, es⟩, _, _, .mk h hes, .mk h' hes' => .mk (h.corresponds h') (alike_elements es hes hes')

theorem alike_values : (vs : List ElementValue) → {vs' vs'' : List ElementValue} →
    List.Forall₂ (ElementValue.Copied S G) vs vs' → List.Forall₂ (ElementValue.Copied S H) vs vs'' →
    List.Forall₂ (ElementValue.Alike G H) vs' vs''
  | [], _, _, .nil, .nil => .nil
  | v :: vs, _, _, .cons h hs, .cons h' hs' =>
    .cons (ElementValue.Copied.alike v h h') (alike_values vs hs hs')

theorem alike_elements : (es : List Element) → {es' es'' : List Element} →
    List.Forall₂ (Element.Copied S G) es es' → List.Forall₂ (Element.Copied S H) es es'' →
    List.Forall₂ (Element.Alike G H) es' es''
  | [], _, _, .nil, .nil => .nil
  | ⟨_, v⟩ :: es, _, _, .cons (.mk h hv) hs, .cons (.mk h' hv') hs' =>
    .cons (.mk (h.corresponds h') (ElementValue.Copied.alike v hv hv')) (alike_elements es hs hs')

end

theorem alike_annotations {as as' as'' : List AnnotationInfo}
    (h : List.Forall₂ (AnnotationInfo.Copied S G) as as')
    (h' : List.Forall₂ (AnnotationInfo.Copied S H) as as'') :
    List.Forall₂ (AnnotationInfo.Alike G H) as' as'' :=
  forall₂_of_forall₂ h h' fun a _ _ => AnnotationInfo.Copied.alike a

theorem InnerClass.Copied.alike {c c' c'' : InnerClass} (h : c.Copied S G c')
    (h' : c.Copied S H c'') : c'.Alike G H c'' := by
  obtain ⟨i, j, k, access⟩ := c'
  obtain ⟨i', j', k', access'⟩ := c''
  cases h.access
  cases h'.access
  exact .mk (h.inner.corresponds h'.inner) (h.outer.corresponds h'.outer)
    (h.name.corresponds h'.name)

theorem Parameter.Copied.alike {p p' p'' : Parameter} (h : p.Copied S G p')
    (h' : p.Copied S H p'') : p'.Alike G H p'' := by
  obtain ⟨i, access⟩ := p'
  obtain ⟨i', access'⟩ := p''
  cases h.access
  cases h'.access
  exact .mk (h.name.corresponds h'.name)

/-! ### Code -/

theorem Opcode.narrowed_widened (o : Opcode) (i : UInt16) :
    (o.widened i).narrowed = o.narrowed := by
  unfold Opcode.widened
  split
  · rename_i h
    rw [h.1]
    rfl
  · rfl

section Code

variable {m m' : OffsetMap} {code new new' : List Instruction}
  (hp : Places (some m) (some code) (some new)) (hp' : Places (some m') (some code) (some new'))

include hp in
theorem Places.target {t t' : UInt32} (h : m.Target t t') :
    Code.unplaceTarget new t' = Code.unplaceTarget code t := by
  cases hp with
  | inside hend hlen =>
    rw [Code.unplaceTarget, Code.unplaceTarget,
      (OffsetMap.moves_of_target hend hlen h).indexAt_eq]

include hp hp'

theorem Instruction.Copied.alike {i j k : Instruction} (h : i.Copied S G m j)
    (h' : i.Copied S H m' k) : Instruction.Alike G H (j.unplaced new) (k.unplaced new') := by
  cases h with
  | constant hi =>
    cases h' with
    | constant hi' =>
      rw [Instruction.unplaced, Instruction.unplaced, Opcode.narrowed_widened,
        Opcode.narrowed_widened]
      exact .constant (hi.corresponds hi')
  | field hi => cases h' with | field hi' => exact .field (hi.corresponds hi')
  | invoke hi => cases h' with | invoke hi' => exact .invoke (hi.corresponds hi')
  | invokeInterface hi =>
    cases h' with | invokeInterface hi' => exact .invokeInterface (hi.corresponds hi')
  | invokeDynamic hi =>
    cases h' with | invokeDynamic hi' => exact .invokeDynamic (hi.corresponds hi')
  | typed hi => cases h' with | typed hi' => exact .typed (hi.corresponds hi')
  | multiNewArray hi =>
    cases h' with | multiNewArray hi' => exact .multiNewArray (hi.corresponds hi')
  | branch ht =>
    cases h' with
    | branch ht' =>
      rw [Instruction.unplaced, Instruction.unplaced, hp.target ht, hp'.target ht']
      exact .plain rfl
  | tableSwitch hd hts =>
    cases h' with
    | tableSwitch hd' hts' =>
      rw [Instruction.unplaced, Instruction.unplaced, hp.target hd, hp'.target hd',
        map_eq_of_forall₂ (hts.imp fun _ _ => hp.target),
        map_eq_of_forall₂ (hts'.imp fun _ _ => hp'.target)]
      exact .plain rfl
  | @lookupSwitch _ _ pairs _ hd hps =>
    cases h' with
    | lookupSwitch hd' hps' =>
      have hpairs {m : OffsetMap} {new : List Instruction}
          (hp : Places (some m) (some code) (some new)) {pairs' : List (Int32 × UInt32)}
          (h : List.Forall₂ (fun p p' => p'.1 = p.1 ∧ m.Target p.2 p'.2) pairs pairs') :
          pairs'.map (fun p => (p.1, Code.unplaceTarget new p.2)) =
            pairs.map fun p => (p.1, Code.unplaceTarget code p.2) :=
        map_eq_of_forall₂ (h.imp fun _ _ h => by rw [h.1, hp.target h.2])
      rw [Instruction.unplaced, Instruction.unplaced, hp.target hd, hp'.target hd', hpairs hp hps,
        hpairs hp' hps']
      exact .plain rfl
  | simple | access | increment | push | newArray =>
    cases h'
    exact .plain rfl

theorem Handler.Copied.alike {h h' h'' : Handler} (hc : h.Copied S G m h')
    (hc' : h.Copied S H m' h'') : Handler.Alike G H (h'.unplaced new) (h''.unplaced new') := by
  rw [Handler.unplaced, Handler.unplaced, hp.offset hc.start, hp.offset hc.stop,
    hp.offset hc.handler, hp'.offset hc'.start, hp'.offset hc'.stop, hp'.offset hc'.handler]
  exact .mk (hc.catchType.corresponds hc'.catchType)

end Code

/-! ### Tables about code -/

section Tables

variable {moved moved' : Option OffsetMap} {old? new? new'? : Option (List Instruction)}
  (hp : Places moved old? new?) (hp' : Places moved' old? new'?)

include hp in
theorem LineNumber.Copied.unplaced_eq {l l' : LineNumber} (h : l.Copied moved l') :
    l'.unplaced new? = l.unplaced old? := by
  rw [LineNumber.unplaced, LineNumber.unplaced, hp.offset h.start, h.line]

include hp hp'

theorem LocalVariable.Copied.alike {v v' v'' : LocalVariable} (h : v.Copied S G moved v')
    (h' : v.Copied S H moved' v'') :
    LocalVariable.Alike G H (v'.unplaced new?) (v''.unplaced new'?) := by
  rw [h.unplaced_eq hp, h'.unplaced_eq hp']
  exact .mk (h.name.corresponds h'.name) (h.descriptor.corresponds h'.descriptor)

theorem VerificationType.Copied.alike {t t' t'' : VerificationType} (h : t.Copied S G moved t')
    (h' : t.Copied S H moved' t'') :
    VerificationType.Alike G H (t'.unplaced new?) (t''.unplaced new'?) := by
  cases h with
  | object hi => cases h' with | object hi' => exact .object (hi.corresponds hi')
  | uninitialized ho =>
    cases h' with
    | uninitialized ho' =>
      rw [VerificationType.unplaced, VerificationType.unplaced, hp.offset ho, hp'.offset ho']
      exact .plain nofun
  | _ =>
    cases h'
    exact .plain nofun

theorem alike_types {ts ts' ts'' : List VerificationType}
    (h : List.Forall₂ (VerificationType.Copied S G moved) ts ts')
    (h' : List.Forall₂ (VerificationType.Copied S H moved') ts ts'') :
    List.Forall₂ (VerificationType.Alike G H) (ts'.map (VerificationType.unplaced new?))
      (ts''.map (VerificationType.unplaced new'?)) :=
  forall₂_map_map (forall₂_of_forall₂ h h' fun _ _ _ => VerificationType.Copied.alike hp hp')

theorem alike_locals {vs vs' vs'' : List LocalVariable}
    (h : List.Forall₂ (LocalVariable.Copied S G moved) vs vs')
    (h' : List.Forall₂ (LocalVariable.Copied S H moved') vs vs'') :
    List.Forall₂ (LocalVariable.Alike G H) (vs'.map (LocalVariable.unplaced new?))
      (vs''.map (LocalVariable.unplaced new'?)) :=
  forall₂_map_map (forall₂_of_forall₂ h h' fun _ _ _ => LocalVariable.Copied.alike hp hp')

theorem Frame.Copied.alike {f f' f'' : Frame} (h : Frame.Copied S G moved f f')
    (h' : Frame.Copied S H moved' f f'') {o o' o'' : UInt16} (ho : moveOffset moved o = .ok o')
    (ho' : moveOffset moved' o = .ok o'') :
    Frame.Alike G H (f'.unplaced new? o') (f''.unplaced new'? o'') := by
  have hplace : unplaceOffset new? o' = unplaceOffset new'? o'' :=
    (hp.offset ho).trans (hp'.offset ho').symm
  cases h with
  | same | sameExtended | chop =>
    cases h'
    simp only [Frame.unplaced, hplace]
    constructor
  | oneItem ht =>
    cases h' with
    | oneItem ht' =>
      simp only [Frame.unplaced, hplace]
      exact .oneItem (ht.alike hp hp' ht')
  | oneItemExtended ht =>
    cases h' with
    | oneItemExtended ht' =>
      simp only [Frame.unplaced, hplace]
      exact .oneItemExtended (ht.alike hp hp' ht')
  | append hts =>
    cases h' with
    | append hts' =>
      simp only [Frame.unplaced, hplace]
      exact .append (alike_types hp hp' hts hts')
  | full hts hus =>
    cases h' with
    | full hts' hus' =>
      simp only [Frame.unplaced, hplace]
      exact .full (alike_types hp hp' hts hts') (alike_types hp hp' hus hus')

/-- The frames stand behind frames at `p` and `q`. -/
theorem Frame.CopiedAfter.alike {items : List (Frame × Nat)} {p q : Option Nat}
    {fs fs' : List Frame}
    (h : Frame.CopiedAfter S G moved (p.map UInt16.ofNat) items fs)
    (h' : Frame.CopiedAfter S H moved' (q.map UInt16.ofNat) items fs') :
    List.Forall₂ (Frame.Alike G H) (unplaceAll new? fs (offsetsFrom p fs))
      (unplaceAll new'? fs' (offsetsFrom q fs')) := by
  induction items generalizing p q fs fs' with
  | nil =>
    cases h
    cases h'
    exact .nil
  | cons item items ih =>
    cases h with
    | @cons _ _ _ _ f o fs ho hdelta hf hrest =>
      cases h' with
      | @cons _ _ _ _ f' o' fs' ho' hdelta' hf' hrest' =>
        have hplace := ofNat_offsetAfter p o
        have hplace' := ofNat_offsetAfter q o'
        rw [← hdelta] at hplace
        rw [← hdelta'] at hplace'
        rw [offsetsFrom_cons, offsetsFrom_cons]
        refine .cons ?_ (ih ?_ ?_)
        · dsimp only
          rw [hplace, hplace']
          exact hf.alike hp hp' hf' ho ho'
        · rw [Option.map_some, hplace]
          exact hrest
        · rw [Option.map_some, hplace']
          exact hrest'

theorem alike_frames {fs fs' fs'' : List Frame}
    (h : Frame.CopiedAfter S G moved none (fs.zip (Frame.offsets fs)) fs')
    (h' : Frame.CopiedAfter S H moved' none (fs.zip (Frame.offsets fs)) fs'') :
    List.Forall₂ (Frame.Alike G H) (Frame.unplaceAll new? fs' (Frame.offsets fs'))
      (Frame.unplaceAll new'? fs'' (Frame.offsets fs'')) := by
  rw [Frame.offsets_eq fs', Frame.offsets_eq fs'']
  exact Frame.CopiedAfter.alike hp hp' (p := none) (q := none) h h'

end Tables

/-! ### Attributes -/

/-- A copied attribute is one that is copied, and so is the copy. -/
theorem Attribute.Copied.isKept {moved : Option OffsetMap} {a a' : Attribute}
    (h : Attribute.Copied S G moved a a') : a.isKept = true ∧ a'.isKept = true := by
  obtain ⟨-, hp⟩ := h
  cases hp <;> exact ⟨rfl, rfl⟩

/-- Payloads that hold no attributes. -/
theorem Payload.Copied.alike_flat {moved moved' : Option OffsetMap}
    {old? new? new'? : Option (List Instruction)} (hp : Places moved old? new?)
    (hp' : Places moved' old? new'?) {p p' p'' : Payload} (h : Payload.Copied S G moved p p')
    (h' : Payload.Copied S H moved' p p'') (hcode : ∀ body, p ≠ .code body)
    (hrecord : ∀ components, p ≠ .record components) :
    Payload.Alike G H (p'.unplaced new?) (p''.unplaced new'?) := by
  cases h with
  | code _ => exact absurd rfl (hcode _)
  | record _ => exact absurd rfl (hrecord _)
  | constantValue h => cases h' with | constantValue h' => exact .constantValue (h.corresponds h')
  | exceptions h => cases h' with | exceptions h' => exact .exceptions (forall₂_indices h h')
  | sourceFile h => cases h' with | sourceFile h' => exact .sourceFile (h.corresponds h')
  | signature h => cases h' with | signature h' => exact .signature (h.corresponds h')
  | lineNumberTable h =>
    cases h' with
    | lineNumberTable h' =>
      rw [Payload.unplaced, Payload.unplaced,
        map_eq_of_forall₂ (h.imp fun _ _ => LineNumber.Copied.unplaced_eq hp),
        map_eq_of_forall₂ (h'.imp fun _ _ => LineNumber.Copied.unplaced_eq hp')]
      exact .lineNumberTable
  | localVariableTable h =>
    cases h' with
    | localVariableTable h' => exact .localVariableTable (alike_locals hp hp' h h')
  | localVariableTypeTable h =>
    cases h' with
    | localVariableTypeTable h' => exact .localVariableTypeTable (alike_locals hp hp' h h')
  | stackMapTable h =>
    cases h' with
    | stackMapTable h' => exact .stackMapTable (alike_frames hp hp' h h')
  | innerClasses h =>
    cases h' with
    | innerClasses h' =>
      exact .innerClasses (forall₂_of_forall₂ h h' fun _ _ _ => InnerClass.Copied.alike)
  | enclosingMethod h k =>
    cases h' with
    | enclosingMethod h' k' => exact .enclosingMethod (h.corresponds h') (k.corresponds k')
  | nestHost h => cases h' with | nestHost h' => exact .nestHost (h.corresponds h')
  | nestMembers h => cases h' with | nestMembers h' => exact .nestMembers (forall₂_indices h h')
  | permittedSubclasses h =>
    cases h' with
    | permittedSubclasses h' => exact .permittedSubclasses (forall₂_indices h h')
  | methodParameters h =>
    cases h' with
    | methodParameters h' =>
      exact .methodParameters (forall₂_of_forall₂ h h' fun _ _ _ => Parameter.Copied.alike)
  | deprecated =>
    cases h'
    exact .deprecated
  | synthetic =>
    cases h'
    exact .synthetic
  | visibleAnnotations h =>
    cases h' with
    | visibleAnnotations h' => exact .visibleAnnotations (alike_annotations h h')
  | invisibleAnnotations h =>
    cases h' with
    | invisibleAnnotations h' => exact .invisibleAnnotations (alike_annotations h h')
  | visibleParameterAnnotations h =>
    cases h' with
    | visibleParameterAnnotations h' =>
      exact .visibleParameterAnnotations (forall₂_of_forall₂ h h' fun _ _ _ => alike_annotations)
  | invisibleParameterAnnotations h =>
    cases h' with
    | invisibleParameterAnnotations h' =>
      exact .invisibleParameterAnnotations (forall₂_of_forall₂ h h' fun _ _ _ => alike_annotations)
  | annotationDefault h =>
    cases h' with
    | annotationDefault h' => exact .annotationDefault (ElementValue.Copied.alike _ h h')
  | sourceDebugExtension =>
    cases h'
    exact .sourceDebugExtension

mutual

theorem Attribute.Copied.alike {moved moved' : Option OffsetMap}
    {old? new? new'? : Option (List Instruction)} (hp : Places moved old? new?)
    (hp' : Places moved' old? new'?) : (a : Attribute) → {a' a'' : Attribute} →
    Attribute.Copied S G moved a a' → Attribute.Copied S H moved' a a'' → a'.IsCompact →
    a''.IsCompact → Attribute.Alike G H (a'.unplaced new?) (a''.unplaced new'?)
  | ⟨_, p⟩, _, _, .mk hi h, .mk hi' h', hc, hc' =>
    .mk (hi.corresponds hi') (Payload.Copied.alike hp hp' p h h' hc hc')
termination_by structural a => a

theorem Payload.Copied.alike {moved moved' : Option OffsetMap}
    {old? new? new'? : Option (List Instruction)} (hp : Places moved old? new?)
    (hp' : Places moved' old? new'?) : (p : Payload) → {p' p'' : Payload} →
    Payload.Copied S G moved p p' → Payload.Copied S H moved' p p'' → p'.IsCompact →
    p''.IsCompact → Payload.Alike G H (p'.unplaced new?) (p''.unplaced new'?) := by
  intro p p' p'' h h' hc hc'
  cases p with
  | code body =>
    cases h with
    | code h =>
      cases h' with
      | code h' => exact .code (CodeBody.Copied.alike body h h' hc hc')
  | record cs =>
    cases h with
    | record h =>
      cases h' with
      | record h' => exact .record (alike_components cs h h' hc hc')
  | _ => exact Payload.Copied.alike_flat hp hp' h h' nofun nofun
termination_by structural p => p

theorem CodeBody.Copied.alike : (body : CodeBody) → {body' body'' : CodeBody} →
    CodeBody.Copied S G body body' → CodeBody.Copied S H body body'' → body'.IsCompact →
    body''.IsCompact → CodeBody.Alike G H body'.unplaced body''.unplaced
  | ⟨_, _, code, _, inner⟩, _, _, .mk hcode hhandlers hinner, .mk hcode' hhandlers' hinner',
    hc, hc' => by
    have hp := Places.inside hc.1 hcode.length_eq.symm
    have hp' := Places.inside hc'.1 hcode'.length_eq.symm
    have halike := forall₂_of_forall₂ hcode hcode' fun _ _ _ => Instruction.Copied.alike hp hp'
    have hrows := forall₂_of_forall₂ hhandlers hhandlers' fun _ _ _ => Handler.Copied.alike hp hp'
    have hattributes := Attribute.AllCopied.alike hp hp' inner hinner hinner' hc.2 hc'.2
    exact .mk (forall₂_map_map halike) (forall₂_map_map hrows) hattributes
termination_by structural body => body

/-- Two copies of one list of attributes are the same but for their numbers and their layout. -/
theorem Attribute.AllCopied.alike {moved moved' : Option OffsetMap}
    {old? new? new'? : Option (List Instruction)} (hp : Places moved old? new?)
    (hp' : Places moved' old? new'?) : (as : List Attribute) → {as' as'' : List Attribute} →
    Attribute.AllCopied S G moved as as' → Attribute.AllCopied S H moved' as as'' →
    AllCompact as' → AllCompact as'' →
    Attribute.AllAlike G H (unplaceAttributes new? as') (unplaceAttributes new'? as'')
  | [], _, _, .nil, .nil, _, _ => .nil
  | _ :: as, _, _, .leftOut _ h, .leftOut _ h', hc, hc' =>
    Attribute.AllCopied.alike hp hp' as h h' hc hc'
  | _ :: _, _, _, .leftOut hout _, .copied ha' _, _, _ =>
    absurd hout (Attribute.isKept_iff.1 ha'.isKept.1)
  | _ :: _, _, _, .copied ha _, .leftOut hout _, _, _ =>
    absurd hout (Attribute.isKept_iff.1 ha.isKept.1)
  | a :: as, _, _, .copied ha h, .copied ha' h', hc, hc' => by
    have hfirst := Attribute.Copied.alike hp hp' a ha ha' hc.1 hc'.1
    have hrest := Attribute.AllCopied.alike hp hp' as h h' hc.2 hc'.2
    unfold Attribute.AllAlike at hrest ⊢
    rw [unplaceAttributes, unplaceAttributes,
      List.filter_cons_of_pos ((Attribute.isKept_unplaced ..).trans ha.isKept.2),
      List.filter_cons_of_pos ((Attribute.isKept_unplaced ..).trans ha'.isKept.2)]
    exact .cons hfirst hrest
termination_by structural as => as

theorem alike_components : (cs : List Component) → {cs' cs'' : List Component} →
    List.Forall₂ (Component.Copied S G) cs cs' → List.Forall₂ (Component.Copied S H) cs cs'' →
    CompactComponents cs' → CompactComponents cs'' →
    List.Forall₂ (Component.Alike G H) (unplaceComponents cs') (unplaceComponents cs'')
  | [], _, _, .nil, .nil, _, _ => .nil
  | ⟨_, _, inner⟩ :: cs, _, _, .cons (.mk hi hj h) hs, .cons (.mk hi' hj' h') hs', hc, hc' =>
    .cons (.mk (hi.corresponds hi') (hj.corresponds hj')
        (Attribute.AllCopied.alike .outside .outside inner h h' hc.1 hc'.1))
      (alike_components cs hs hs' hc.2 hc'.2)
termination_by structural cs => cs

end

end Copies

/-! ## Code that is relocated is short -/

section Compact

open Relocation

variable {P : Symbol → Prop} {S : ImportSource}

mutual

theorem settles_compact_attribute? (hS : S.Supplies P) {moved moved' : Option OffsetMap}
    (hm : FixesOffsets moved moved') : (a : Attribute) →
    Settles P (attribute? S moved a) fun _ _ r _ => ∀ a', r = some a' → a'.IsCompact
  | ⟨i, p⟩ => by
    by_cases hout : (Attribute.mk i p).IsLeftOut
    · refine (settles_attribute? hS hm ⟨i, p⟩).mono ?_
      rintro G g r g' (⟨rfl, -⟩ | ⟨a', rfl, hcopied, -⟩)
      · nofun
      · exact absurd hout (Attribute.isKept_iff.1 hcopied.isKept.1)
    · rw [attribute?_eq S moved hout]
      refine ((settles_index hS i).bind fun j =>
        (settles_compact_payload hS hm p hout).bind fun p' =>
        settles_pure (some (Attribute.mk j p'))).mono ?_
      rintro G g _ _ ⟨j, _, -, p', _, hp, rfl, -⟩ _ ⟨⟩
      exact hp

theorem settles_compact_payload (hS : S.Supplies P) {moved moved' : Option OffsetMap}
    (hm : FixesOffsets moved moved') {i : UInt16} : (p : Payload) →
    ¬(Attribute.mk i p).IsLeftOut →
    Settles P (payload S moved p) fun _ _ p' _ => p'.IsCompact := by
  intro p hout
  cases p with
  | code body =>
    refine ((settles_compact_codeBody hS body).bind fun body' =>
      settles_pure (Payload.code body')).mono ?_
    rintro G g _ _ ⟨body', _, hbody, rfl, -⟩
    exact hbody
  | record cs =>
    rw [payload_record]
    refine ((settles_compact_components hS cs).bind fun cs' =>
      settles_pure (Payload.record cs')).mono ?_
    rintro G g _ _ ⟨cs', _, hcs, rfl, -⟩
    exact hcs
  | _ =>
    refine (settles_payload hS hm _ hout).mono ?_
    rintro G g _ _ ⟨hcopied, -⟩
    cases hcopied <;> trivial

theorem settles_compact_codeBody (hS : S.Supplies P) : (body : CodeBody) →
    Settles P (codeBody S body) fun _ _ body' _ => body'.IsCompact
  | ⟨maxStack, maxLocals, code, handlers, inner⟩ => by
    rw [codeBody_eq]
    refine ((settles_instructions hS code).bindOn fun y G g g' ⟨_, _, _, hfix, _⟩ =>
      (Settles.mapM (settles_handler hS hfix) handlers).bind fun handlers' =>
      (settles_compact_attributes hS (some y.2) (some _) hfix inner).bind fun inner' =>
      settles_pure (CodeBody.mk maxStack maxLocals y.1 handlers' inner')).mono ?_
    rintro G g _ _ ⟨y, _, ⟨-, -, hend, -⟩, _, _, -, inner', _, hinner, rfl, -⟩
    exact ⟨hend, hinner⟩

theorem settles_compact_attributes (hS : S.Supplies P) (moved moved' : Option OffsetMap)
    (hm : FixesOffsets moved moved') : (as : List Attribute) →
    Settles P (as.filterMapM (attribute? S moved)) fun _ _ as' _ => AllCompact as'
  | [] => by
    refine (settles_pure ([] : List Attribute)).mono ?_
    rintro G g _ _ ⟨rfl, -⟩
    trivial
  | a :: as => by
    rw [List.filterMapM_cons]
    have hrest := settles_compact_attributes hS moved moved' hm as
    refine ((settles_compact_attribute? hS hm a).bindOn fun r _ _ _ hr =>
      (?_ : Settles P _ fun _ _ as' _ => AllCompact as')).mono ?_
    · cases r with
      | none => exact hrest
      | some a' =>
        refine (hrest.bind fun as' => settles_pure (a' :: as')).mono ?_
        rintro G g _ _ ⟨as', _, has, rfl, -⟩
        exact ⟨hr a' rfl, has⟩
    · rintro G g as' _ ⟨r, _, -, h⟩
      exact h

theorem settles_compact_components (hS : S.Supplies P) : (cs : List Component) →
    Settles P (cs.mapM (component S)) fun _ _ cs' _ => CompactComponents cs'
  | [] => by
    refine (settles_pure ([] : List Component)).mono ?_
    rintro G g _ _ ⟨rfl, -⟩
    trivial
  | ⟨name, descriptor, inner⟩ :: cs => by
    rw [List.mapM_cons]
    refine (((settles_index hS name).bind fun i => (settles_index hS descriptor).bind fun j =>
      (settles_compact_attributes hS none none trivial inner).bind fun inner' =>
      settles_pure (Component.mk i j inner')).bind fun c =>
      (settles_compact_components hS cs).bind fun cs' => settles_pure (c :: cs')).mono ?_
    rintro G g _ _ ⟨_, _, ⟨i, _, -, j, _, -, inner', _, hinner, rfl, -⟩, cs', _, hcs, rfl, -⟩
    exact ⟨hinner, hcs⟩

end

end Compact

end JvmClass
