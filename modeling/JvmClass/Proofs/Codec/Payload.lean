import JvmClass.Attribute.Binary
import JvmClass.Proofs.Codec.Annotations
import JvmClass.Proofs.Codec.Frame

/-!
# Spellings of flat payloads

A payload is flat if it holds no attributes of its own and no code. It is read off what is written
for it, provided its frames and annotations can be read (`Payload.IsReadable`).
-/

namespace JvmClass

open Reader

/-! ## Rows -/

theorem Handler.reads_read : Reads Handler.read fun h used => used = h.encode := by
  refine (reads_u16.bind fun a _ _ => reads_u16.bind fun b _ _ => reads_u16.bind fun c _ _ =>
    reads_u16.map (Handler.mk a b c)).congr fun h used => ?_
  cases h
  simp [encode]

theorem LineNumber.reads_read : Reads LineNumber.read fun l used => used = l.encode := by
  refine (reads_u16.bind fun a _ _ => reads_u16.map (LineNumber.mk a)).congr fun l used => ?_
  cases l
  simp [encode]

theorem LocalVariable.reads_read : Reads LocalVariable.read fun v used => used = v.encode := by
  refine (reads_u16.bind fun a _ _ => reads_u16.bind fun b _ _ => reads_u16.bind fun c _ _ =>
    reads_u16.bind fun d _ _ => reads_u16.map (LocalVariable.mk a b c d)).congr fun v used => ?_
  cases v
  simp [encode]

theorem InnerClass.reads_read : Reads InnerClass.read fun c used => used = c.encode := by
  refine (reads_u16.bind fun a _ _ => reads_u16.bind fun b _ _ => reads_u16.bind fun c _ _ =>
    reads_u16.map fun d => InnerClass.mk a b c ⟨d⟩).congr fun c used => ?_
  obtain ⟨inner, outer, name, ⟨flags⟩⟩ := c
  simp [encode]

theorem Parameter.reads_read : Reads Parameter.read fun p used => used = p.encode := by
  refine (reads_u16.bind fun a _ _ => reads_u16.map fun b => Parameter.mk a ⟨b⟩).congr
    fun p used => ?_
  obtain ⟨name, ⟨flags⟩⟩ := p
  simp [encode]

theorem reads_indices (table : Table) :
    Reads u16Table fun indices used => encodeIndices table indices = .ok used :=
  reads_u16.encodedTable table fun _ => Nat.le_refl 2

theorem BootstrapMethod.reads_read :
    Reads BootstrapMethod.read fun m used => True ∧ m.encode = .ok used := by
  refine (reads_u16.bind fun a _ _ => (reads_indices .bootstrapArguments).map
    (BootstrapMethod.mk a)).congr fun m used => ?_
  rw [true_and, encode, exceptBind_eq_ok]
  constructor
  · rintro ⟨a, _, _, rfl, ⟨b, rfl, hb⟩, rfl⟩
    exact ⟨_, hb, rfl⟩
  · rintro ⟨u, hu, h⟩
    cases h
    exact ⟨m.method, _, u, rfl, ⟨m.arguments, rfl, hu⟩, rfl⟩

theorem readParameters_reads :
    Reads readParameters fun parameters used =>
      (do return (← Table.methodParameters.shortCount parameters.length) ++
        parameters.flatMap Parameter.encode) = .ok used := by
  unfold readParameters
  refine (reads_u8.bind fun n _ _ => (Parameter.reads_read.times n.toNat).need
    fun ps u hs => hs.1 ▸ hs.2.length_ge fun p v hv => hv ▸ Nat.le_refl 4).congr fun ps used => ?_
  simp only [SpellsAll.eq_flatMap, exceptBind_eq_ok, Table.shortCount_eq_ok]
  constructor
  · rintro ⟨n, _, _, rfl, ⟨hn, rfl⟩, rfl⟩
    exact ⟨_, ⟨hn ▸ n.toNat_lt, rfl⟩, by rw [hn, UInt8.ofNat_toNat]; rfl⟩
  · rintro ⟨_, ⟨hl, rfl⟩, h⟩
    cases h
    exact ⟨UInt8.ofNat ps.length, _, _, rfl, ⟨(toNat_byte hl).symm, rfl⟩, rfl⟩

theorem readParameterAnnotations_reads :
    Reads readParameterAnnotations fun parameters used =>
      (∀ annotations ∈ parameters, ∀ a ∈ annotations, a.IsReadable maxElementNesting) ∧
        encodeParameterAnnotations parameters = .ok used := by
  unfold readParameterAnnotations
  refine (reads_u8.bind fun n _ _ => AnnotationInfo.reads_readTable.times n.toNat).congr
    fun ps used => ?_
  unfold encodeParameterAnnotations
  simp only [spellsAll_concatM, append_eq_ok, Table.shortCount_eq_ok]
  constructor
  · rintro ⟨n, _, v, rfl, ⟨hn, hr, hv⟩, rfl⟩
    exact ⟨hr, _, v, ⟨hn ▸ n.toNat_lt, rfl⟩, hv, by rw [hn, UInt8.ofNat_toNat]⟩
  · rintro ⟨hr, _, v, ⟨hl, rfl⟩, hv, rfl⟩
    exact ⟨UInt8.ofNat ps.length, _, v, rfl, ⟨(toNat_byte hl).symm, hr, hv⟩, rfl⟩

/-! ## Payloads -/

namespace Payload

/-- Flat payloads that reading can yield. -/
def IsReadable : Payload → Prop
  | stackMapTable frames => ∀ frame ∈ frames, frame.IsReadable
  | visibleAnnotations annotations | invisibleAnnotations annotations =>
    ∀ a ∈ annotations, a.IsReadable maxElementNesting
  | visibleParameterAnnotations parameters | invisibleParameterAnnotations parameters =>
    ∀ annotations ∈ parameters, ∀ a ∈ annotations, a.IsReadable maxElementNesting
  | annotationDefault value => value.IsReadable maxElementNesting
  | code _ | record _ | raw _ => False
  | _ => True

/-- `r` reads the flat payloads that `make` makes. -/
def ReadsFlat {α : Type} (r : Reader α) (make : α → Payload) : Prop :=
  ReadsAll (do return make (← r)) fun payload used =>
    ∃ a, payload = make a ∧ payload.IsReadable ∧ payload.encode = .ok used

theorem ReadsFlat.of {α : Type} {r : Reader α} {make : α → Payload} {spell : α → Bytes → Prop}
    (h : ReadsAll r spell)
    (e : ∀ a used, spell a used ↔ (make a).IsReadable ∧ (make a).encode = .ok used) :
    ReadsFlat r make := by
  refine (h.map make).congr fun payload used => exists_congr fun a => ?_
  constructor
  · rintro ⟨rfl, hs⟩
    exact ⟨rfl, (e a used).1 hs⟩
  · rintro ⟨rfl, hs⟩
    exact ⟨rfl, (e a used).2 hs⟩

theorem readsFlat_index (make : UInt16 → Payload)
    (h : ∀ i, (make i).IsReadable ∧ (make i).encode = .ok (Bytes.ofU16 i)) :
    ReadsFlat u16 make :=
  .of reads_u16.readsAll fun i used => by
    rw [(h i).2, Except.ok.injEq, eq_comm]
    exact ⟨fun e => ⟨(h i).1, e⟩, And.right⟩

theorem readsFlat_indices (make : List UInt16 → Payload) (table : Table)
    (h : ∀ is, (make is).IsReadable ∧ (make is).encode = encodeIndices table is) :
    ReadsFlat u16Table make :=
  .of (reads_indices table).readsAll fun is used => by
    rw [(h is).2]
    exact ⟨fun e => ⟨(h is).1, e⟩, And.right⟩

theorem readsFlat_lines : ReadsFlat (table 4 LineNumber.read) lineNumberTable :=
  .of (LineNumber.reads_read.encodedTable .lineNumbers fun _ => Nat.le_refl 4).readsAll
    fun _ _ => (iff_of_eq (true_and _)).symm

theorem readsFlat_locals (make : List LocalVariable → Payload)
    (h : ∀ vs, (make vs).IsReadable ∧ (make vs).encode = LocalVariable.encodeTable vs) :
    ReadsFlat (table 10 LocalVariable.read) make :=
  .of (LocalVariable.reads_read.encodedTable .localVariables fun _ => Nat.le_refl 10).readsAll
    fun vs used => by
      rw [(h vs).2]
      exact ⟨fun e => ⟨(h vs).1, e⟩, And.right⟩

theorem readsFlat_frames : ReadsFlat (table 1 Frame.read) stackMapTable :=
  .of (Frame.reads_read.encodedTableM .stackMapFrames
    fun _ _ _ h => Frame.encode_length_pos h).readsAll fun _ _ => Iff.rfl

theorem readsFlat_innerClasses : ReadsFlat (table 8 InnerClass.read) innerClasses :=
  .of (InnerClass.reads_read.encodedTable .innerClasses fun _ => Nat.le_refl 8).readsAll
    fun _ _ => (iff_of_eq (true_and _)).symm

theorem readsFlat_bootstrapMethods : ReadsFlat (table 4 BootstrapMethod.read) bootstrapMethods := by
  refine .of (BootstrapMethod.reads_read.encodedTableM .bootstrapMethods fun m u _ h => ?_).readsAll
    fun _ _ => and_congr_left' (by simp [IsReadable])
  obtain ⟨v, hv, h⟩ := exceptBind_eq_ok.1 h
  obtain ⟨-, rfl⟩ := Table.encode_eq_ok.1 hv
  cases h
  simp [Bytes.ofCount]
  omega

theorem readsFlat_parameters : ReadsFlat readParameters methodParameters :=
  .of readParameters_reads.readsAll fun _ _ => (iff_of_eq (true_and _)).symm

theorem readsFlat_annotations (make : List AnnotationInfo → Payload)
    (h : ∀ as, ((make as).IsReadable ↔ ∀ a ∈ as, a.IsReadable maxElementNesting) ∧
      (make as).encode = AnnotationInfo.encodeTable as) :
    ReadsFlat AnnotationInfo.readTable make :=
  .of AnnotationInfo.reads_readTable.readsAll fun as used => by rw [(h as).1, (h as).2]

theorem readsFlat_parameterAnnotations (make : List (List AnnotationInfo) → Payload)
    (h : ∀ ps, ((make ps).IsReadable ↔ ∀ as ∈ ps, ∀ a ∈ as, a.IsReadable maxElementNesting) ∧
      (make ps).encode = encodeParameterAnnotations ps) :
    ReadsFlat readParameterAnnotations make :=
  .of readParameterAnnotations_reads.readsAll fun ps used => by rw [(h ps).1, (h ps).2]

theorem readsFlat_default : ReadsFlat (ElementValue.read maxElementNesting) annotationDefault :=
  .of (ElementValue.reads_read maxElementNesting).readsAll fun _ _ => Iff.rfl

theorem readsFlat_debug : ReadsFlat rest sourceDebugExtension :=
  .of readsAll_rest fun bytes used => by simp [IsReadable, encode]

theorem readsAll_enclosingMethod :
    ReadsAll (do return enclosingMethod (← u16) (← u16)) fun payload used =>
      ∃ owner method, payload = enclosingMethod owner method ∧ payload.IsReadable ∧
        payload.encode = .ok used := by
  refine ((reads_u16.bind fun a _ _ => reads_u16.map (enclosingMethod a)).congr
    fun payload used => ?_).readsAll
  constructor
  · rintro ⟨a, _, _, rfl, ⟨b, rfl, rfl⟩, rfl⟩
    exact ⟨a, b, rfl, trivial, rfl⟩
  · rintro ⟨a, b, rfl, -, h⟩
    cases h
    exact ⟨a, _, _, rfl, ⟨b, rfl, rfl⟩, rfl⟩

theorem readsAll_empty {payload : Payload} (hr : payload.IsReadable)
    (he : payload.encode = .ok []) :
    ReadsAll (pure payload : Reader Payload) fun p used =>
      p = payload ∧ p.IsReadable ∧ p.encode = .ok used := by
  refine ((reads_pure payload).congr fun p used => ?_).readsAll
  constructor
  · rintro ⟨rfl, rfl⟩
    exact ⟨rfl, hr, he⟩
  · rintro ⟨rfl, -, h⟩
    rw [he] at h
    cases h
    exact ⟨rfl, rfl⟩

end Payload

end JvmClass
