import JvmClass.Annotations
import JvmClass.Proofs.Codec.Reads
import JvmClass.Proofs.Codec.Text

/-!
# Spellings of annotations

An element value is read off what is written for it if its tags are known and it nests no deeper
than the reader goes. The writer works off lists with an accumulator; first it is brought into the
form of `concatM`.
-/

namespace JvmClass

open Reader

/-! ## Writing -/

/-- The bytes of one element of an annotation. -/
def Element.encode (e : Element) : Except Error Bytes := do
  return Bytes.ofU16 e.name ++ (← e.value.encode)

theorem encodeValues_eq (pieces : List Bytes) (values : List ElementValue) :
    encodeValues pieces values =
      (do return pieces.reverse.flatten ++ (← concatM ElementValue.encode values)) := by
  induction values generalizing pieces with
  | nil =>
    rw [encodeValues, concatM_nil]
    show _ = Except.ok _
    rw [List.append_nil]
  | cons v rest ih =>
    rw [encodeValues, concatM_cons]
    cases v.encode with
    | error e => rfl
    | ok piece =>
      show encodeValues (piece :: pieces) rest = _
      rw [ih]
      cases concatM ElementValue.encode rest <;> simp [bind, Except.bind, pure, Except.pure]

theorem encodeElements_eq (pieces : List Bytes) (elements : List Element) :
    encodeElements pieces elements =
      (do return pieces.reverse.flatten ++ (← concatM Element.encode elements)) := by
  induction elements generalizing pieces with
  | nil =>
    rw [encodeElements, concatM_nil]
    show _ = Except.ok _
    rw [List.append_nil]
  | cons e rest ih =>
    obtain ⟨name, v⟩ := e
    rw [encodeElements, concatM_cons, Element.encode]
    cases v.encode with
    | error e => rfl
    | ok piece =>
      show encodeElements ((Bytes.ofU16 name ++ piece) :: pieces) rest = _
      rw [ih]
      cases concatM Element.encode rest <;> simp [bind, Except.bind, pure, Except.pure]

theorem AnnotationInfo.encode_eq_ok {a : AnnotationInfo} {out : Bytes} :
    a.encode = .ok out ↔ a.elements.length < 0x10000 ∧
      ∃ v, concatM Element.encode a.elements = .ok v ∧
        out = Bytes.ofU16 a.type ++ Bytes.ofCount a.elements.length ++ v := by
  obtain ⟨type, elements⟩ := a
  rw [AnnotationInfo.encode, exceptBind_eq_ok]
  simp only [encodeElements_eq]
  constructor
  · rintro ⟨count, hc, h⟩
    obtain ⟨w, hw, h⟩ := exceptBind_eq_ok.1 h
    obtain ⟨v, hv, hw⟩ := exceptBind_eq_ok.1 hw
    obtain ⟨hl, rfl⟩ := Table.count_eq_ok.1 hc
    cases hw
    cases h
    exact ⟨hl, v, hv, rfl⟩
  · rintro ⟨hl, v, hv, rfl⟩
    refine ⟨_, Table.count_eq_ok.2 ⟨hl, rfl⟩, ?_⟩
    rw [hv]
    rfl

theorem ElementValue.encode_array_eq_ok {values : List ElementValue} {out : Bytes} :
    (ElementValue.array values).encode = .ok out ↔ values.length < 0x10000 ∧
      ∃ v, concatM ElementValue.encode values = .ok v ∧
        out = arrayTag :: (Bytes.ofCount values.length ++ v) := by
  rw [ElementValue.encode, exceptBind_eq_ok]
  simp only [encodeValues_eq]
  constructor
  · rintro ⟨count, hc, h⟩
    obtain ⟨w, hw, h⟩ := exceptBind_eq_ok.1 h
    obtain ⟨v, hv, hw⟩ := exceptBind_eq_ok.1 hw
    obtain ⟨hl, rfl⟩ := Table.count_eq_ok.1 hc
    cases hw
    cases h
    exact ⟨hl, v, hv, rfl⟩
  · rintro ⟨hl, v, hv, rfl⟩
    refine ⟨_, Table.count_eq_ok.2 ⟨hl, rfl⟩, ?_⟩
    rw [hv]
    rfl

theorem ElementValue.encode_nested_eq_ok {content : AnnotationInfo} {out : Bytes} :
    (ElementValue.nested content).encode = .ok out ↔
      ∃ v, content.encode = .ok v ∧ out = nestedTag :: v := by
  rw [ElementValue.encode, exceptBind_eq_ok]
  constructor
  · rintro ⟨v, hv, h⟩
    cases h
    exact ⟨v, hv, rfl⟩
  · rintro ⟨v, hv, rfl⟩
    exact ⟨v, hv, rfl⟩

/-! ## Reading -/

/-- Values whose constants have a known tag and that nest at most `depth` deep. -/
def ElementValue.IsReadable : (depth : Nat) → ElementValue → Prop
  | _, .const tag _ => isConstTag tag = true
  | _, .enum .. | _, .classInfo _ => True
  | 0, .nested _ | 0, .array _ => False
  | depth + 1, .nested ⟨_, elements⟩ => ∀ e ∈ elements, e.value.IsReadable depth
  | depth + 1, .array values => ∀ v ∈ values, v.IsReadable depth

/-- Annotations that reading can yield. -/
def AnnotationInfo.IsReadable (depth : Nat) (a : AnnotationInfo) : Prop :=
  ∀ e ∈ a.elements, e.value.IsReadable depth

theorem AnnotationInfo.reads_readWith {value : Reader ElementValue} {ok : ElementValue → Prop}
    (h : Reads value fun v used => ok v ∧ v.encode = .ok used) :
    Reads (readWith value) fun a used => (∀ e ∈ a.elements, ok e.value) ∧ a.encode = .ok used := by
  have element : Reads (do
      let name ← u16
      return (⟨name, ← value⟩ : Element)) fun e used => ok e.value ∧ e.encode = .ok used := by
    refine (reads_u16.bind fun name _ _ => h.map (Element.mk name)).congr fun ⟨name, v⟩ used => ?_
    rw [Element.encode, exceptBind_eq_ok]
    constructor
    · rintro ⟨_, _, _, rfl, ⟨_, e, hv, he⟩, rfl⟩
      cases e
      exact ⟨hv, _, he, rfl⟩
    · rintro ⟨hv, u, hu, he⟩
      cases he
      exact ⟨name, _, u, rfl, ⟨v, rfl, hv, hu⟩, rfl⟩
  refine (reads_u16.bind fun type _ _ => reads_u16.bind fun count _ _ =>
    (element.times count.toNat).map (AnnotationInfo.mk type)).congr fun ⟨type, elements⟩ used => ?_
  rw [encode_eq_ok]
  simp only [spellsAll_concatM]
  constructor
  · rintro ⟨_, _, _, rfl, ⟨count, _, v, rfl, ⟨_, e, hn, ha, hv⟩, rfl⟩, rfl⟩
    cases e
    refine ⟨ha, hn ▸ count.toNat_lt, v, hv, ?_⟩
    rw [Bytes.ofCount, hn, UInt16.ofNat_toNat, List.append_assoc]
  · rintro ⟨ha, hl, v, hv, rfl⟩
    refine ⟨type, _, _, rfl, ⟨UInt16.ofNat elements.length, _, v, rfl,
      ⟨elements, rfl, ?_, ha, hv⟩, rfl⟩, ?_⟩
    · rw [toNat_unit hl]
    · rw [Bytes.ofCount, List.append_assoc]

theorem ElementValue.reads_array {value : Reader ElementValue} {ok : ElementValue → Prop}
    (h : Reads value fun v used => ok v ∧ v.encode = .ok used) :
    Reads (do
      let count ← u16
      return ElementValue.array (← times count.toNat value)) fun a used =>
        ∃ values, (∀ v ∈ values, ok v) ∧ values.length < 0x10000 ∧ a = .array values ∧
          ∃ v, concatM ElementValue.encode values = .ok v ∧
            used = Bytes.ofCount values.length ++ v := by
  refine (reads_u16.bind fun count _ _ => (h.times count.toNat).map ElementValue.array).congr
    fun a used => ?_
  simp only [spellsAll_concatM]
  constructor
  · rintro ⟨count, _, v, rfl, ⟨values, rfl, hn, ha, hv⟩, rfl⟩
    refine ⟨values, ha, hn ▸ count.toNat_lt, rfl, v, hv, ?_⟩
    rw [Bytes.ofCount, hn, UInt16.ofNat_toNat]
  · rintro ⟨values, ha, hl, rfl, v, hv, rfl⟩
    refine ⟨UInt16.ofNat values.length, _, v, rfl, ⟨values, rfl, ?_, ha, hv⟩, rfl⟩
    rw [toNat_unit hl]

namespace ElementValue

theorem reads_enum :
    Reads (do return ElementValue.enum (← u16) (← u16)) fun v used =>
      ∃ type constant, v = .enum type constant ∧
        used = Bytes.ofU16 type ++ Bytes.ofU16 constant := by
  refine (reads_u16.bind fun type _ _ => reads_u16.map (enum type)).congr fun v used => ?_
  constructor
  · rintro ⟨type, _, _, rfl, ⟨constant, rfl, rfl⟩, rfl⟩
    exact ⟨type, constant, rfl, rfl⟩
  · rintro ⟨type, constant, rfl, rfl⟩
    exact ⟨type, _, _, rfl, ⟨constant, rfl, rfl⟩, rfl⟩

/-- One level of a value, given that the values inside are read. -/
theorem reads_level (depth : Nat)
    (ih : ∀ d, depth = d + 1 →
      Reads (read d) fun v used => v.IsReadable d ∧ v.encode = .ok used) :
    Reads (read depth) fun v used => v.IsReadable depth ∧ v.encode = .ok used := by
  unfold read
  refine Reads.offset fun start => Reads.intro ?_ ?_
  · refine reads_u8.sound.bind fun tag u hu => ?_
    subst hu
    split
    · rename_i ht
      refine (reads_u16.map (const tag)).sound.mono ?_
      rintro _ _ ⟨i, rfl, rfl⟩
      exact ⟨by cases depth <;> exact ht, rfl⟩
    · split
      · rename_i ht
        subst ht
        refine reads_enum.sound.mono ?_
        rintro _ _ ⟨type, constant, rfl, rfl⟩
        exact ⟨by cases depth <;> trivial, rfl⟩
      · split
        · rename_i ht
          subst ht
          refine (reads_u16.map classInfo).sound.mono ?_
          rintro _ _ ⟨i, rfl, rfl⟩
          exact ⟨by cases depth <;> trivial, rfl⟩
        · split
          · rename_i ht
            cases depth with
            | zero => exact .throw _
            | succ depth =>
              dsimp only
              split
              · rename_i ht
                subst ht
                refine ((AnnotationInfo.reads_readWith (ih depth rfl)).map nested).sound.mono ?_
                rintro _ _ ⟨⟨type, elements⟩, rfl, hr, he⟩
                exact ⟨hr, encode_nested_eq_ok.2 ⟨_, he, rfl⟩⟩
              · rename_i hn
                obtain rfl := ht.resolve_left hn
                refine (reads_array (ih depth rfl)).sound.mono ?_
                rintro _ _ ⟨values, hr, hl, rfl, v, hv, rfl⟩
                exact ⟨hr, encode_array_eq_ok.2 ⟨hl, v, hv, rfl⟩⟩
          · exact .throw _
  · rintro v used rest offset ⟨hr, he⟩
    cases v with
    | const tag i =>
      have ht : isConstTag tag = true := by cases depth <;> exact hr
      cases he
      have h {r : Reader ElementValue} :
          Reads (if isConstTag tag = true then (do return const tag (← u16)) else r)
            fun v used => ∃ i, v = const tag i ∧ used = Bytes.ofU16 i := by
        rw [if_pos ht]
        exact reads_u16.map (const tag)
      exact run_tagged h ⟨i, rfl, rfl⟩ rest offset
    | enum type constant =>
      cases he
      exact run_tagged reads_enum ⟨type, constant, rfl, rfl⟩ rest offset
    | classInfo i =>
      cases he
      exact run_tagged (reads_u16.map classInfo) ⟨i, rfl, rfl⟩ rest offset
    | nested content =>
      obtain ⟨v, hv, rfl⟩ := encode_nested_eq_ok.1 he
      cases depth with
      | zero => exact hr.elim
      | succ depth =>
        obtain ⟨type, elements⟩ := content
        exact run_tagged ((AnnotationInfo.reads_readWith (ih depth rfl)).map nested)
          ⟨⟨type, elements⟩, rfl, hr, hv⟩ rest offset
    | array values =>
      obtain ⟨hl, v, hv, rfl⟩ := encode_array_eq_ok.1 he
      cases depth with
      | zero => exact hr.elim
      | succ depth =>
        exact run_tagged (reads_array (ih depth rfl)) ⟨values, hr, hl, rfl, v, hv, rfl⟩ rest offset

theorem reads_read (depth : Nat) :
    Reads (read depth) fun v used => v.IsReadable depth ∧ v.encode = .ok used := by
  induction depth with
  | zero => exact reads_level 0 fun d h => nomatch h
  | succ depth ih =>
    refine reads_level (depth + 1) fun d h => ?_
    cases h
    exact ih

end ElementValue

namespace AnnotationInfo

theorem reads_read :
    Reads AnnotationInfo.read fun a used => a.IsReadable maxElementNesting ∧ a.encode = .ok used :=
  reads_readWith (ElementValue.reads_read maxElementNesting)

theorem reads_readTable :
    Reads readTable fun annotations used =>
      (∀ a ∈ annotations, a.IsReadable maxElementNesting) ∧ encodeTable annotations = .ok used := by
  refine reads_read.encodedTableM .annotations fun a u _ hu => ?_
  obtain ⟨-, v, -, rfl⟩ := encode_eq_ok.1 hu
  simp [Bytes.ofCount]
  omega

end AnnotationInfo

end JvmClass
