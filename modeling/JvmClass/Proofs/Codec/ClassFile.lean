import JvmClass.ClassFile.Binary
import JvmClass.Proofs.Codec.Pool
import JvmClass.Proofs.Codec.Rewriting

/-!
# Spellings of class files

`ClassFile.Spells` is the layout of a class file: what the bytes of a class are, with the stored
texts and the code arrays, of which the class keeps less than all. The main statements are that
reading accepts exactly what is spelled (`read_eq_ok_iff`), and what writing comes to
(`rewritten`).
-/

namespace JvmClass

open Reader

/-! ## Members -/

/-- `used` is read as the member, with the code arrays `codes` inside it. -/
def Member.Spells (p : Pool) (depth : Nat) (m : Member) (codes : List Bytes) (used : Bytes) :
    Prop :=
  ∃ v, SpellsTable (Attribute.Spells p depth) m.attributes codes v ∧
    used = Bytes.ofU16 m.access.bits ++ Bytes.ofU16 m.name ++ Bytes.ofU16 m.descriptor ++ v

theorem reads_recordTexts (p : Pool) (event : String → String → Event) (first second : UInt16) :
    Reads (recordTexts p event first second) fun _ used => used = [] :=
  (reads_pure ()).congr fun a used => by simp

theorem Member.reads_read (p : Pool) (depth : Nat) (event : String → String → Event) :
    Reads (Member.read p depth event) fun m used => ∃ codes, m.Spells p depth codes used := by
  refine (reads_u16.bind fun access _ _ => reads_u16.bind fun name _ _ =>
    reads_u16.bind fun descriptor _ _ =>
    (reads_spellsTable (Attribute.reads_read p depth) Attribute.length_ge_of_spells).bind
      fun attributes _ _ => (reads_recordTexts p event name descriptor).bind fun _ _ _ =>
      reads_pure (Member.mk ⟨access⟩ name descriptor attributes)).congr fun m used => ?_
  constructor
  · rintro ⟨access, _, _, rfl, ⟨name, _, _, rfl, ⟨descriptor, _, _, rfl, ⟨attributes, v, _,
      ⟨codes, hv⟩, ⟨_, _, _, rfl, ⟨rfl, rfl⟩, rfl⟩, rfl⟩, rfl⟩, rfl⟩, rfl⟩
    exact ⟨codes, v, hv, by simp⟩
  · rintro ⟨codes, v, hv, rfl⟩
    simp only [List.append_assoc]
    refine ⟨m.access.bits, _, _, rfl, ?_, rfl⟩
    refine ⟨m.name, _, _, rfl, ?_, rfl⟩
    refine ⟨m.descriptor, _, _, rfl, ?_, rfl⟩
    refine ⟨m.attributes, v, [], ⟨codes, hv⟩, ?_, (List.append_nil v).symm⟩
    exact ⟨(), [], [], rfl, ⟨rfl, rfl⟩, rfl⟩

theorem Member.length_ge_of_spells {p : Pool} {depth : Nat} (m : Member) (codes : List Bytes)
    (used : Bytes) (h : m.Spells p depth codes used) : 8 ≤ used.length := by
  obtain ⟨_, ⟨-, v, -, rfl⟩, rfl⟩ := h
  simp [Bytes.ofCount]
  omega

theorem Member.rewritten {p : Pool} {depth : Nat} (m : Member) (codes : List Bytes) (used : Bytes)
    (h : m.Spells p depth codes used) :
    Rewritten p (Member.Spells p depth) Member.encode m codes used := by
  obtain ⟨v, hv, rfl⟩ := h
  refine (Attribute.rewritten_table Attribute.rewritten hv).behind _ (fun out he _ => ?_)
    (fun e he => ?_) fun codes' out ho _ => ⟨out, ho, rfl⟩
  · rw [Member.encode, he]
    rfl
  · rw [Member.encode, he]
    rfl

/-! ## Classes -/

namespace ClassFile

/-- What reading checks about a class as a whole. -/
structure IsValid (c : ClassFile) : Prop where
  minMajor_le : minMajor ≤ c.major
  le_maxMajor : c.major ≤ maxMajor
  pool : c.pool.validate = .ok ()
  thisClass : ∃ name, c.pool.className c.thisClass = .ok name
  superClass : c.superClass ≠ 0 → ∃ name, c.pool.className c.superClass = .ok name
  bootstrap : c.pool.validateBootstrap c.bootstrapMethods = .ok ()

/-- What stands before the tables of a class. -/
def head (c : ClassFile) (pool : Bytes) : Bytes :=
  Bytes.ofU32 magic ++ Bytes.ofU16 c.minor ++ Bytes.ofU16 c.major ++ pool ++
    Bytes.ofU16 c.access.bits ++ Bytes.ofU16 c.thisClass ++ Bytes.ofU16 c.superClass

/-- The tables of a class: interfaces, fields, methods and attributes. -/
def SpellsBody (depth : Nat) (c : ClassFile) (codes : List Bytes) (used : Bytes) : Prop :=
  ∃ fields methods attributes fieldCodes methodCodes attributeCodes,
    c.interfaces.length < 0x10000 ∧
    SpellsTable (Member.Spells c.pool depth) c.fields fieldCodes fields ∧
    SpellsTable (Member.Spells c.pool depth) c.methods methodCodes methods ∧
    SpellsTable (Attribute.Spells c.pool depth) c.attributes attributeCodes attributes ∧
    codes = fieldCodes ++ methodCodes ++ attributeCodes ∧
    used = Bytes.ofCount c.interfaces.length ++ c.interfaces.flatMap Bytes.ofU16 ++ fields ++
      methods ++ attributes

/-- `used` is read as the class, with the stored texts of its pool and its code arrays. -/
def Spells (depth : Nat) (c : ClassFile) (texts codes : List Bytes) (used : Bytes) : Prop :=
  c.IsValid ∧ ∃ pool body, c.pool.Spells texts pool ∧ c.SpellsBody depth codes body ∧
    used = c.head pool ++ body

theorem reads_readHeader :
    Reads readHeader fun v used => (minMajor ≤ v.2 ∧ v.2 ≤ maxMajor) ∧
      used = Bytes.ofU32 magic ++ Bytes.ofU16 v.1 ++ Bytes.ofU16 v.2 := by
  unfold readHeader
  refine (reads_u32.bind fun found _ _ => Reads.guard fun _ => reads_u16.bind fun minor _ _ =>
    reads_u16.bind fun major _ _ => Reads.guard fun _ => reads_pure (minor, major)).congr
    fun v used => ?_
  constructor
  · rintro ⟨found, _, _, rfl, ⟨hm, minor, _, _, rfl, ⟨major, _, _, rfl, ⟨hv, rfl, rfl⟩, rfl⟩, rfl⟩,
      rfl⟩
    rw [Decidable.not_not.1 hm]
    simp only [Bool.or_eq_true, decide_eq_true_eq, not_or, UInt16.not_lt] at hv
    exact ⟨hv, by simp⟩
  · rintro ⟨hv, rfl⟩
    simp only [List.append_assoc]
    refine ⟨magic, _, _, rfl, ⟨by simp, ?_⟩, rfl⟩
    refine ⟨v.1, _, _, rfl, ?_, rfl⟩
    refine ⟨v.2, _, [], rfl, ⟨?_, rfl, rfl⟩, (List.append_nil _).symm⟩
    simp only [Bool.or_eq_true, decide_eq_true_eq, not_or, UInt16.not_lt]
    exact hv

theorem readsAll_end {α : Type} (a : α) (e : Event) :
    ReadsAll (do readEnd; Reader.record e; return a) fun b used => b = a ∧ used = [] := by
  intro bytes offset b c
  cases bytes with
  | nil =>
    constructor
    · rintro ⟨h, -⟩
      cases h
      exact ⟨⟨rfl, rfl⟩, rfl⟩
    · rintro ⟨⟨rfl, -⟩, rfl⟩
      exact ⟨rfl, rfl⟩
  | cons x xs =>
    constructor
    · rintro ⟨h, -⟩
      cases h
    · rintro ⟨⟨-, h⟩, -⟩
      cases h

/-- A check that is made under a condition. -/
theorem readsAll_checked {α β : Type} {q : Prop} [Decidable q] {x : Except Error α}
    {r : Reader β} {spell : β → Bytes → Prop} (h : ReadsAll r spell) :
    ReadsAll (if q then (do let _ ← ofExcept x; r) else r) fun b used =>
      (q → ∃ a, x = .ok a) ∧ spell b used := by
  split
  · rename_i hq
    refine ((reads_ofExcept x).bindAll fun _ _ _ => h).congr fun b used => ?_
    constructor
    · rintro ⟨a, _, _, ⟨ha, rfl⟩, hs, rfl⟩
      exact ⟨fun _ => ⟨a, ha⟩, hs⟩
    · rintro ⟨ha, hs⟩
      obtain ⟨a, ha⟩ := ha hq
      exact ⟨a, [], used, ⟨ha, rfl⟩, hs, rfl⟩
  · rename_i hq
    exact h.congr fun b used => ⟨fun hs => ⟨fun h => absurd h hq, hs⟩, And.right⟩

/-- The tables, given what stands before them. -/
theorem readsAll_tables (depth : Nat) (start : ClassFile)
    (event : List Member → List Member → Event) :
    ReadsAll (do
      let interfaces ← u16Table
      let fields ← table 8 (Member.read start.pool depth .field)
      let methods ← table 8 (Member.read start.pool depth .method)
      let attributes ← Attribute.readTable start.pool depth
      ofExcept (start.pool.validateBootstrap ((Attribute.bootstrapMethods? attributes).getD []))
      readEnd
      Reader.record (event fields methods)
      return { start with interfaces, fields, methods, attributes }) fun c used =>
        (∃ interfaces fields methods attributes,
          c = { start with interfaces, fields, methods, attributes }) ∧
        c.pool.validateBootstrap c.bootstrapMethods = .ok () ∧
        ∃ codes, c.SpellsBody depth codes used := by
  have members (event : String → String → Event) :=
    reads_spellsTable (Member.reads_read start.pool depth event) Member.length_ge_of_spells
  have attributes :=
    reads_spellsTable (Attribute.reads_read start.pool depth) Attribute.length_ge_of_spells
  refine (reads_u16Table.bindAll fun interfaces _ _ => (members .field).bindAll fun fields _ _ =>
    (members .method).bindAll fun methods _ _ => attributes.bindAll fun attributes _ _ =>
    (reads_ofExcept (start.pool.validateBootstrap
      ((Attribute.bootstrapMethods? attributes).getD []))).bindAll fun _ _ _ =>
    readsAll_end { start with interfaces, fields, methods, attributes } _).congr fun c used => ?_
  constructor
  · rintro ⟨interfaces, _, _, ⟨hi, rfl⟩, ⟨fields, f, _, ⟨fc, hf⟩, ⟨methods, m, _, ⟨mc, hm⟩,
      ⟨attributes, a, _, ⟨ac, ha⟩, ⟨_, _, _, ⟨hb, rfl⟩, ⟨rfl, rfl⟩, rfl⟩, rfl⟩, rfl⟩, rfl⟩, rfl⟩
    exact ⟨⟨interfaces, fields, methods, attributes, rfl⟩, hb, fc ++ mc ++ ac, f, m, a, fc, mc, ac,
      hi, hf, hm, ha, rfl, by simp⟩
  · rintro ⟨⟨interfaces, fields, methods, attributes, rfl⟩, hb, codes, hbody⟩
    obtain ⟨f, m, a, fc, mc, ac, hi, hf, hm, ha, -, rfl⟩ := hbody
    simp only [List.append_assoc]
    refine ⟨interfaces, _, _, ⟨hi, rfl⟩, ?_, (List.append_assoc ..).symm⟩
    refine ⟨fields, f, _, ⟨fc, hf⟩, ?_, rfl⟩
    refine ⟨methods, m, _, ⟨mc, hm⟩, ?_, rfl⟩
    refine ⟨attributes, a, [], ⟨ac, ha⟩, ?_, (List.append_nil a).symm⟩
    exact ⟨(), [], [], ⟨hb, rfl⟩, ⟨rfl, rfl⟩, rfl⟩

theorem readsAll_reader (depth : Nat) :
    ReadsAll (reader depth) fun c used => ∃ texts codes, c.Spells depth texts codes used := by
  unfold reader
  refine (reads_readHeader.bindAll fun version _ _ => Pool.reads_read.bindAll fun pool _ _ =>
    (reads_ofExcept pool.validate).bindAll fun _ _ _ => reads_u16.bindAll fun access _ _ =>
    reads_u16.bindAll fun thisClass _ _ =>
    (reads_ofExcept (pool.className thisClass)).bindAll fun name _ _ =>
    reads_u16.bindAll fun superClass _ _ => readsAll_checked
      (readsAll_tables depth
        ⟨version.1, version.2, pool, ⟨access⟩, thisClass, superClass, [], [], [], []⟩
        fun fields methods => .parsed name version.2 version.1 pool.size fields.length
          methods.length)).congr fun c used => ?_
  constructor
  · rintro ⟨version, _, _, ⟨⟨hmin, hmax⟩, rfl⟩, ⟨pool, poolBytes, _, ⟨texts, hp⟩, hrest, rfl⟩, rfl⟩
    obtain ⟨_, _, _, ⟨hval, rfl⟩, ⟨access, _, _, rfl, ⟨thisClass, _, _, rfl, hrest, rfl⟩, rfl⟩,
      rfl⟩ := hrest
    obtain ⟨name, _, _, ⟨hn, rfl⟩, ⟨superClass, _, body, rfl, hrest, rfl⟩, rfl⟩ := hrest
    obtain ⟨hsuper, ⟨interfaces, fields, methods, attributes, rfl⟩, hb, codes, hbody⟩ := hrest
    exact ⟨texts, codes, ⟨hmin, hmax, hval, ⟨name, hn⟩, hsuper, hb⟩, poolBytes, body, hp, hbody,
      by simp [head]⟩
  · rintro ⟨texts, codes, hv, poolBytes, body, hp, hbody, rfl⟩
    obtain ⟨name, hn⟩ := hv.thisClass
    have hversion : minMajor ≤ c.major ∧ c.major ≤ maxMajor := ⟨hv.minMajor_le, hv.le_maxMajor⟩
    simp only [head, List.append_assoc]
    refine ⟨(c.minor, c.major), _, _, ⟨hversion, rfl⟩, ?_,
      by rw [List.append_assoc, List.append_assoc]⟩
    refine ⟨c.pool, poolBytes, _, ⟨texts, hp⟩, ?_, rfl⟩
    refine ⟨(), [], _, ⟨hv.pool, rfl⟩, ?_, rfl⟩
    refine ⟨c.access.bits, _, _, rfl, ?_, rfl⟩
    refine ⟨c.thisClass, _, _, rfl, ?_, rfl⟩
    refine ⟨name, [], _, ⟨hn, rfl⟩, ?_, rfl⟩
    refine ⟨c.superClass, _, body, rfl, ⟨hv.superClass, ?_, hv.bootstrap, codes, hbody⟩, rfl⟩
    exact ⟨c.interfaces, c.fields, c.methods, c.attributes, rfl⟩

/-- A reader that succeeds at the end only. -/
def Ends {α : Type} (r : Reader α) : Prop := ∀ s a c, r s = .ok a c → c.bytes = []

theorem Ends.bind {α β : Type} {r : Reader α} {f : α → Reader β} (h : ∀ a, Ends (f a)) :
    Ends (r >>= f) := by
  intro s b c hr
  obtain ⟨a, s', -, hf⟩ := bind_eq_ok.1 hr
  exact h a s' b c hf

theorem ends_end {α : Type} (a : α) (e : Event) : Ends (do readEnd; Reader.record e; return a) := by
  rintro ⟨bytes, offset, log⟩ b c h
  cases bytes <;> cases h
  rfl

theorem Ends.checked {α β : Type} {q : Prop} [Decidable q] {x : Except Error α} {r : Reader β}
    (h : Ends r) : Ends (if q then (do let _ ← ofExcept x; r) else r) := by
  split
  · exact .bind fun _ => h
  · exact h

theorem ends_reader (depth : Nat) : Ends (reader depth) :=
  .bind fun _ => .bind fun _ => .bind fun _ => .bind fun _ => .bind fun _ => .bind fun _ =>
    .bind fun _ => .checked (.bind fun _ => .bind fun _ => .bind fun _ => .bind fun _ =>
      .bind fun _ => ends_end _ _)

/-- Reading accepts exactly what is spelled. -/
theorem read_eq_ok_iff {bytes : Bytes} {c : ClassFile} :
    read bytes = .ok c ↔ ∃ texts codes, c.Spells bytes.length texts codes bytes := by
  have hreader := readsAll_reader bytes.length bytes 0 c
  unfold read readLogged Cursor.start
  constructor
  · intro h
    split at h
    · rename_i rest hr
      cases h
      exact ((hreader rest).1 ⟨hr, ends_reader _ _ _ _ hr⟩).1
    · cases h
  · intro h
    rw [((hreader _).2 ⟨h, rfl⟩).1]

/-! ## Writing -/

theorem encode_eq (c : ClassFile) :
    c.encode = (do
      let pool ← c.pool.encode
      let body ← c.encodeBody
      return c.head pool ++ body) := by
  unfold encode pieces Pool.encode head
  rw [concatM_append, concatM_append]
  cases concatM id c.pool.pieces <;> cases c.encodeBody <;>
    simp [concatM_cons, concatM_nil, bind, Except.bind, pure, Except.pure]

theorem encodeBody_eq (c : ClassFile) (h : c.interfaces.length < 0x10000) :
    c.encodeBody = (do
      let tables ← (do
        let members ← (do
          return (← (do return (← Table.fields.count c.fields.length) ++
              (← concatM Member.encode c.fields))) ++
            (← (do return (← Table.methods.count c.methods.length) ++
              (← concatM Member.encode c.methods))))
        return members ++ (← Attribute.encodeTable c.attributes))
      return Bytes.ofCount c.interfaces.length ++ c.interfaces.flatMap Bytes.ofU16 ++ tables) := by
  have hi : encodeIndices .interfaces c.interfaces = .ok _ := Table.encode_eq_ok.2 ⟨h, rfl⟩
  unfold encodeBody
  rw [hi]
  cases Table.fields.count c.fields.length <;> cases concatM Member.encode c.fields <;>
    cases Table.methods.count c.methods.length <;> cases concatM Member.encode c.methods <;>
    cases Attribute.encodeTable c.attributes <;>
    simp [bind, Except.bind, pure, Except.pure]

theorem rewritten_body {depth : Nat} {c : ClassFile} {codes : List Bytes} {used : Bytes}
    (h : c.SpellsBody depth codes used) :
    Rewritten c.pool (fun c => c.SpellsBody depth) encodeBody c codes used := by
  obtain ⟨f, m, a, fc, mc, ac, hi, hf, hm, ha, rfl, rfl⟩ := h
  have fields := Rewritten.table (fun m _ => Member.rewritten m) .fields hf
  have methods := Rewritten.table (fun m _ => Member.rewritten m) .methods hm
  have attributes := Attribute.rewritten_table Attribute.rewritten ha
  rw [List.append_assoc _ f, List.append_assoc _ (f ++ m)]
  refine ((fields.pair methods).pair attributes).behind _ (fun out he _ => ?_) (fun e he => ?_)
    fun codes' out ho _ => ?_
  · rw [encodeBody_eq c hi, he]
    rfl
  · rw [encodeBody_eq c hi, he]
    rfl
  · obtain ⟨_, ac, _, a, ⟨fc, mc, f, m, hf, hm, rfl, rfl⟩, ha, rfl, rfl⟩ := ho
    exact ⟨f, m, a, fc, mc, ac, hi, hf, hm, ha, rfl, by simp⟩

theorem SpellsBody.of_length_le {depth depth' : Nat} {c : ClassFile} {codes : List Bytes}
    {used : Bytes} (h : c.SpellsBody depth codes used) (hl : used.length ≤ depth') :
    c.SpellsBody depth' codes used := by
  obtain ⟨f, m, a, fc, mc, ac, hi, hf, hm, ha, rfl, rfl⟩ := h
  simp only [List.length_append] at hl
  have nested {n : Nat} (hn : n ≤ depth') (a : Attribute) (ps : List Bytes) (u : Bytes)
      (hu : u.length ≤ n) (h : a.Spells c.pool depth ps u) : a.Spells c.pool depth' ps u :=
    h.of_length_le (by omega)
  have member {n : Nat} (hn : n ≤ depth') (m : Member) (ps : List Bytes) (u : Bytes)
      (hu : u.length ≤ n) (h : m.Spells c.pool depth ps u) : m.Spells c.pool depth' ps u := by
    obtain ⟨v, hv, rfl⟩ := h
    simp only [List.length_append] at hu
    exact ⟨v, hv.mono (nested (by omega)), rfl⟩
  exact ⟨f, m, a, fc, mc, ac, hi, hf.mono (member (by omega)), hm.mono (member (by omega)),
    ha.mono (nested (by omega)), rfl, rfl⟩

/-- A class without interfaces and fields is read off the spellings of its pool and its tables. -/
theorem read_of_tables {c : ClassFile} {depth : Nat} {texts methodCodes attributeCodes : List Bytes}
    {pool methods attributes bytes : Bytes} (hvalid : c.IsValid) (hpool : c.pool.Spells texts pool)
    (hinterfaces : c.interfaces = []) (hfields : c.fields = [])
    (hmethods : SpellsTable (Member.Spells c.pool depth) c.methods methodCodes methods)
    (hattributes : SpellsTable (Attribute.Spells c.pool depth) c.attributes attributeCodes
      attributes)
    (hbytes : bytes = c.head pool ++ ([0, 0, 0, 0] ++ methods ++ attributes)) :
    read bytes = .ok c := by
  subst hbytes
  have hbody : c.SpellsBody depth (methodCodes ++ attributeCodes)
      ([0, 0, 0, 0] ++ methods ++ attributes) := by
    refine ⟨[0, 0], methods, attributes, [], methodCodes, attributeCodes, ?_, ?_, hmethods,
      hattributes, rfl, ?_⟩
    · simp [hinterfaces]
    · rw [hfields]
      exact .nil
    · rw [hinterfaces]
      rfl
  exact read_eq_ok_iff.2 ⟨texts, _, hvalid, pool, _, hpool, hbody.of_length_le (by simp), rfl⟩

/-- A class that has nothing but one method is read off the spelling of the method. -/
theorem read_of_method {c : ClassFile} {m : Member} {depth : Nat} {codes : List Bytes}
    {pool method bytes : Bytes} (hvalid : c.IsValid) (hreadable : c.pool.IsReadable)
    (hpool : c.pool.encode = .ok pool) (hinterfaces : c.interfaces = []) (hfields : c.fields = [])
    (hmethods : c.methods = [m]) (hattributes : c.attributes = [])
    (hm : m.Spells c.pool depth codes method)
    (hbytes : bytes = c.head pool ++ ([0, 0, 0, 0, 0, 1] ++ method ++ [0, 0])) :
    read bytes = .ok c := by
  obtain ⟨texts, hp⟩ := Pool.spells_of_encode hreadable hpool
  have hmethod : SpellsTable (Member.Spells c.pool depth) c.methods codes ([0, 1] ++ method) := by
    rw [hmethods]
    exact .singleton hm
  have hnone : SpellsTable (Attribute.Spells c.pool depth) c.attributes [] [0, 0] := by
    rw [hattributes]
    exact .nil
  refine read_of_tables hvalid hp hinterfaces hfields hmethod hnone ?_
  rw [hbytes]
  rfl

section Written

variable {depth : Nat} {c : ClassFile} {texts codes : List Bytes} {used : Bytes}

/-- A class whose texts and code fit is written, and what is written is read as the class. -/
theorem Spells.encode_eq_ok (h : c.Spells depth texts codes used) (ht : c.pool.TextsFit)
    (hc : ∀ code ∈ codes, code.length < 0x10000) :
    ∃ out, c.encode = .ok out ∧ read out = .ok c ∧
      (out = used ↔ (∀ t ∈ texts, Pool.Reencodes t) ∧
        ∀ code ∈ codes, Code.IsCanonical c.pool code) := by
  obtain ⟨hv, pool, body, hp, hb, rfl⟩ := h
  obtain ⟨pool', hep⟩ := Pool.encode_ok_iff.2 ht
  obtain ⟨texts', hp'⟩ := Pool.spells_of_encode hp.isReadable hep
  obtain ⟨body', codes', heb, hb', hlb, hiff⟩ := (rewritten_body hb).short hc
  refine ⟨c.head pool' ++ body', by rw [encode_eq, hep, heb]; rfl, ?_, ?_⟩
  · refine read_eq_ok_iff.2 ⟨texts', codes', hv, pool', body', hp', ?_, rfl⟩
    exact hb'.of_length_le (by simp)
  · rw [← hiff, ← Pool.encode_eq_iff hp, hep, Except.ok.injEq]
    constructor
    · intro e
      obtain ⟨hhead, rfl⟩ := List.append_inj' e hlb
      unfold head at hhead
      exact ⟨List.append_cancel_left (List.append_cancel_right (List.append_cancel_right
        (List.append_cancel_right hhead))), rfl⟩
    · rintro ⟨rfl, rfl⟩
      rfl

theorem encode_of_textsUnfit (ht : ¬c.pool.TextsFit) :
    ∃ n, c.encode = .error (.textTooLong n) := by
  cases hp : c.pool.encode with
  | ok pool => exact absurd (Pool.encode_ok_iff.1 ⟨pool, hp⟩) ht
  | error e =>
    obtain ⟨-, n, rfl⟩ := Pool.encode_error hp
    exact ⟨n, by rw [encode_eq, hp]; rfl⟩

theorem Spells.encode_of_long (h : c.Spells depth texts codes used) (ht : c.pool.TextsFit)
    {code : Bytes} (hm : code ∈ codes) (hl : ¬code.length < 0x10000) :
    ∃ n, c.encode = .error (.tooManyEntries .code n) := by
  obtain ⟨-, -, body, -, hb, -⟩ := h
  obtain ⟨pool, hp⟩ := Pool.encode_ok_iff.2 ht
  obtain ⟨n, hn⟩ := (rewritten_body hb).long code hm hl
  exact ⟨n, by rw [encode_eq, hp, hn]; rfl⟩

end Written

end ClassFile

end JvmClass
