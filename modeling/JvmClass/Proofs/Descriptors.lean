import JvmClass.Descriptor
import Mathlib.Data.List.TakeDrop
import Mathlib.Data.List.TakeWhile

/-!
# Descriptors are read as they are spelled

A text is accepted as a descriptor exactly if it is the spelling of a type, and it is read as that
type. The types without such a spelling are those with a class name that is empty or has a
semicolon in it. `scan` takes one type off the front of a text, whatever stands behind it; since no
type starts with a closing parenthesis, the parameters of a method end in one place only. The slots
of the parameters are counted modulo the width of the count.
-/

namespace JvmClass

/-- A class name that a descriptor can hold. -/
def IsClassName (name : String) : Prop := name ≠ "" ∧ ';' ∉ name.toList

namespace FieldType

/-- The class names inside a type. -/
def classNames : FieldType → List String
  | object name => [name]
  | array component => component.classNames
  | _ => []

def IsSpellable (t : FieldType) : Prop := ∀ name ∈ t.classNames, IsClassName name

/-! ## One type -/

theorem span_eq_iff {cs name rest : List Char} {c : Char} :
    cs.span (· ≠ ';') = (name, c :: rest) ↔
      c = ';' ∧ ';' ∉ name ∧ cs = name ++ ';' :: rest := by
  rw [List.span_eq_takeWhile_dropWhile, Prod.mk.injEq]
  constructor
  · rintro ⟨hname, hrest⟩
    have hc : c = ';' := by
      have hstop := List.head_dropWhile_not (fun x => decide (x ≠ ';')) (l := cs)
        (hrest ▸ List.cons_ne_nil c rest)
      simp only [hrest, List.head_cons] at hstop
      simpa using hstop
    refine ⟨hc, fun hmem => ?_, ?_⟩
    · rw [← hname] at hmem
      simpa using List.mem_takeWhile_imp hmem
    · rw [← hc, ← hname, ← hrest, List.takeWhile_append_dropWhile]
  · rintro ⟨rfl, hname, rfl⟩
    have hall : ∀ x ∈ name, decide (x ≠ ';') = true := by
      intro x hx
      exact decide_eq_true fun h => hname (h ▸ hx)
    rw [List.takeWhile_append_of_pos hall, List.dropWhile_append_of_pos hall]
    simp

theorem scan_object {cs rest : List Char} {t : FieldType} :
    scan ('L' :: cs) = some (t, rest) ↔
      ∃ name, t = object name ∧ IsClassName name ∧ cs = name.toList ++ ';' :: rest := by
  rw [scan, if_neg (by decide), if_pos rfl]
  constructor
  · intro h
    split at h
    · rename_i name c tail hspan
      obtain ⟨rfl, hname, rfl⟩ := span_eq_iff.1 hspan
      split at h
      · cases h
      · rename_i hne
        cases h
        refine ⟨String.ofList name, rfl, ⟨fun he => ?_, ?_⟩, ?_⟩
        · rw [← String.toList_eq_nil_iff, String.toList_ofList] at he
          exact hne (by rw [he]; rfl)
        · rwa [String.toList_ofList]
        · rw [String.toList_ofList]
    · cases h
  · rintro ⟨name, rfl, ⟨hne, hname⟩, rfl⟩
    rw [span_eq_iff.2 ⟨rfl, hname, rfl⟩]
    have hfull : ¬name.toList.isEmpty = true := by
      rw [List.isEmpty_iff, String.toList_eq_nil_iff]
      exact hne
    dsimp only
    rw [if_neg hfull, String.ofList_toList]

theorem scan_array {cs rest : List Char} {t : FieldType} :
    scan ('[' :: cs) = some (t, rest) ↔
      ∃ component, t = array component ∧ scan cs = some (component, rest) := by
  rw [scan, if_pos rfl]
  constructor
  · intro h
    split at h
    · rename_i component tail hscan
      cases h
      exact ⟨component, rfl, hscan⟩
    · cases h
  · rintro ⟨component, rfl, hscan⟩
    rw [hscan]

theorem text_of_base? {c : Char} {t : FieldType} (h : base? c = some t) :
    t.text.toList = [c] ∧ t.classNames = [] := by
  unfold base? at h
  split at h <;> cases h <;> exact ⟨by decide, rfl⟩

/-- What was taken off the front of a text is a spelling. -/
theorem of_scan {cs rest : List Char} {t : FieldType} (h : scan cs = some (t, rest)) :
    t.IsSpellable ∧ cs = t.text.toList ++ rest := by
  induction cs generalizing t with
  | nil => cases h
  | cons c cs ih =>
    by_cases harray : c = '['
    · subst harray
      obtain ⟨component, rfl, hscan⟩ := scan_array.1 h
      obtain ⟨hnames, rfl⟩ := ih hscan
      exact ⟨hnames, by rw [text, String.toList_append]; rfl⟩
    · by_cases hobject : c = 'L'
      · subst hobject
        obtain ⟨name, rfl, hname, rfl⟩ := scan_object.1 h
        exact ⟨List.forall_mem_singleton.2 hname, by simp [text]⟩
      · rw [scan, if_neg harray, if_neg hobject] at h
        obtain ⟨u, hbase, h⟩ := Option.map_eq_some_iff.1 h
        cases h
        obtain ⟨htext, hnames⟩ := text_of_base? hbase
        exact ⟨by simp [IsSpellable, hnames], by rw [htext]; rfl⟩

/-- A spelling is taken off the front of a text, whatever stands behind it. -/
theorem scan_text {t : FieldType} (h : t.IsSpellable) (rest : List Char) :
    scan (t.text.toList ++ rest) = some (t, rest) := by
  induction t with
  | object name =>
    rw [text, String.toList_append, String.toList_append, List.append_assoc, List.append_assoc]
    exact scan_object.2 ⟨name, rfl, List.forall_mem_singleton.1 h, rfl⟩
  | array component ih =>
    rw [text, String.toList_append, List.append_assoc]
    exact scan_array.2 ⟨component, rfl, ih h⟩
  | _ => rfl

theorem scan_eq_some_iff {cs rest : List Char} {t : FieldType} :
    scan cs = some (t, rest) ↔ t.IsSpellable ∧ cs = t.text.toList ++ rest := by
  constructor
  · exact of_scan
  · rintro ⟨h, rfl⟩
    exact scan_text h rest

theorem length_text_pos (t : FieldType) : 0 < t.text.toList.length := by
  cases t with
  | object | array => simp [text]
  | _ => decide

/-! ## Many types -/

/-- The spellings of types, one behind the other. -/
def texts (ts : List FieldType) : List Char := ts.flatMap fun t => t.text.toList

/-- Types are taken off as long as there is one: the rest starts with none. -/
theorem scanMany_eq_iff {limit : Nat} {before : List FieldType} {cs : List Char}
    {ts : List FieldType} {rest : List Char} (hlimit : cs.length ≤ limit) :
    scanMany limit before cs = (ts, rest) ↔
      ∃ found, ts = before.reverse ++ found ∧ (∀ t ∈ found, t.IsSpellable) ∧
        cs = texts found ++ rest ∧ scan rest = none := by
  have stops {cs : List Char} {before : List FieldType} (hscan : scan cs = none) :
      (before.reverse, cs) = (ts, rest) ↔
        ∃ found, ts = before.reverse ++ found ∧ (∀ t ∈ found, t.IsSpellable) ∧
          cs = texts found ++ rest ∧ scan rest = none := by
    constructor
    · rintro ⟨⟩
      exact ⟨[], by simp, by simp, rfl, hscan⟩
    · rintro ⟨found, rfl, hfound, rfl, -⟩
      cases found with
      | nil => simp [texts]
      | cons t found =>
        rw [texts, List.flatMap_cons, List.append_assoc,
          scan_text (hfound t List.mem_cons_self)] at hscan
        cases hscan
  induction limit generalizing before cs with
  | zero =>
    obtain rfl := List.eq_nil_of_length_eq_zero (Nat.le_zero.1 hlimit)
    exact stops rfl
  | succ limit ih =>
    rw [scanMany]
    cases hscan : scan cs with
    | none => exact stops hscan
    | some front =>
      obtain ⟨t, tail⟩ := front
      obtain ⟨ht, rfl⟩ := of_scan hscan
      have hpos := length_text_pos t
      rw [List.length_append] at hlimit
      refine (@ih (t :: before) tail (by omega)).trans ⟨?_, ?_⟩
      · rintro ⟨found, rfl, hfound, rfl, hrest⟩
        refine ⟨t :: found, by simp, List.forall_mem_cons.2 ⟨ht, hfound⟩, ?_, hrest⟩
        rw [texts, texts, List.flatMap_cons, List.append_assoc]
      · rintro ⟨found, rfl, hfound, htext, hrest⟩
        cases found with
        | nil =>
          rw [htext] at hscan
          cases hscan.symm.trans hrest
        | cons u found =>
          obtain ⟨hu, hothers⟩ := List.forall_mem_cons.1 hfound
          rw [texts, List.flatMap_cons, List.append_assoc] at htext
          rw [htext, scan_text hu] at hscan
          cases hscan
          exact ⟨found, by simp, hothers, rfl, hrest⟩

end FieldType

namespace MethodType

def IsSpellable (m : MethodType) : Prop :=
  (∀ t ∈ m.parameters, t.IsSpellable) ∧ ∀ t, m.result = some t → t.IsSpellable

/-- The spelling of a result type. -/
def resultText : Option FieldType → String
  | some t => t.text
  | none => "V"

theorem toList_text (m : MethodType) :
    m.text.toList =
      '(' :: (FieldType.texts m.parameters ++ ')' :: (resultText m.result).toList) := by
  have hjoin : (String.join (m.parameters.map FieldType.text)).toList =
      FieldType.texts m.parameters := by
    rw [String.toList_join, List.flatMap_map]
    rfl
  have htext : m.text = "(" ++ String.join (m.parameters.map FieldType.text) ++ ")" ++
      resultText m.result := by
    unfold text resultText
    cases m.result <;> rfl
  rw [htext, String.toList_append, String.toList_append, String.toList_append, hjoin]
  simp

theorem scanResult?_eq_iff {cs : List Char} {result : Option FieldType} :
    scanResult? cs = some result ↔
      (∀ t, result = some t → t.IsSpellable) ∧ cs = (resultText result).toList := by
  unfold scanResult?
  constructor
  · intro h
    split at h
    · rename_i t hscan
      cases h
      obtain ⟨ht, rfl⟩ := FieldType.of_scan hscan
      exact ⟨fun u hu => by cases hu; exact ht, List.append_nil _⟩
    · cases h
      exact ⟨nofun, rfl⟩
    · cases h
  · rintro ⟨hresult, rfl⟩
    cases result with
    | none => rfl
    | some t =>
      have hscan := FieldType.scan_text (hresult t rfl) []
      rw [List.append_nil] at hscan
      simp only [resultText, hscan]

theorem scan?_eq_some_iff {cs : List Char} {m : MethodType} :
    scan? cs = some m ↔ m.IsSpellable ∧ cs = m.text.toList := by
  -- No type starts with the parenthesis, so the parameters end there and nowhere else.
  have hclose (rest : List Char) : FieldType.scan (')' :: rest) = none := rfl
  rw [toList_text]
  constructor
  · intro h
    unfold scan? at h
    split at h
    · rename_i cs
      split at h
      · rename_i parameters rest hmany
        obtain ⟨result, hresult, rfl⟩ := Option.map_eq_some_iff.1 h
        obtain ⟨found, hfound, hspellable, rfl, -⟩ :=
          (FieldType.scanMany_eq_iff (Nat.le_refl _)).1 hmany
        obtain ⟨hspelled, rfl⟩ := scanResult?_eq_iff.1 hresult
        obtain rfl : parameters = found := hfound
        exact ⟨⟨hspellable, hspelled⟩, rfl⟩
      · cases h
    · cases h
  · rintro ⟨⟨hparameters, hresult⟩, rfl⟩
    have hmany : FieldType.scanMany _ [] _ = (m.parameters, _) :=
      (FieldType.scanMany_eq_iff (Nat.le_refl _)).2
        ⟨m.parameters, rfl, hparameters, rfl, hclose (resultText m.result).toList⟩
    simp only [scan?]
    rw [hmany]
    simp only [scanResult?_eq_iff.2 ⟨hresult, rfl⟩, Option.map_some]

end MethodType

/-- Descriptors are accepted exactly as they are spelled. -/
theorem parse_eq_ok_iff_text (s : String) :
    (∀ t, FieldType.parse s = .ok t ↔ t.text = s ∧ t.IsSpellable) ∧
      ∀ m, MethodType.parse s = .ok m ↔ m.text = s ∧ m.IsSpellable := by
  constructor
  · intro t
    have hscan : FieldType.parse s = .ok t ↔ FieldType.scan s.toList = some (t, []) := by
      unfold FieldType.parse
      split <;> simp_all
    rw [hscan, FieldType.scan_eq_some_iff, List.append_nil, String.toList_inj, and_comm, eq_comm]
  · intro m
    have hscan : MethodType.parse s = .ok m ↔ MethodType.scan? s.toList = some m := by
      unfold MethodType.parse
      split <;> simp_all
    rw [hscan, MethodType.scan?_eq_some_iff, String.toList_inj, and_comm, eq_comm]

/-! ## Slots of the parameters -/

/-- A value of the type takes two slots. -/
def FieldType.isWide (t : FieldType) : Bool := t == long || t == double

theorem FieldType.toNat_slots (t : FieldType) : t.slots.toNat = 1 + t.isWide.toNat := by
  cases t <;> rfl

namespace MethodType

/-- Each parameter needs a slot, and each wide one another. -/
def slotCount (m : MethodType) : Nat := m.parameters.length + m.parameters.countP FieldType.isWide

/-- What is counted beside the parameters may be a receiver. -/
theorem toNat_parameterSlots_add (m : MethodType) (n : UInt16) :
    (m.parameterSlots + n).toNat = (m.slotCount + n.toNat) % 0x10000 := by
  have hsum (ts : List FieldType) (slots : UInt16) :
      (ts.foldl (fun slots t => slots + t.slots) slots).toNat =
        (slots.toNat + (ts.length + ts.countP FieldType.isWide)) % 0x10000 := by
    induction ts generalizing slots with
    | nil => exact (Nat.mod_eq_of_lt slots.toNat_lt).symm
    | cons t ts ih =>
      rw [List.foldl_cons, ih, UInt16.toNat_add, FieldType.toNat_slots, Nat.mod_add_mod,
        List.length_cons, List.countP_cons]
      congr 1
      cases t.isWide <;> simp <;> omega
  rw [UInt16.toNat_add, parameterSlots, hsum, UInt16.toNat_zero, Nat.zero_add, Nat.mod_add_mod,
    slotCount]

end MethodType

end JvmClass
