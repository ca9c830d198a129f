import JvmClass.Proofs.Edit.Copies
import JvmClass.Proofs.Relocation.Movement

/-!
# Tables that point outside of the code

Code is copied with its tables, and every offset in them is looked up among the boundaries of the
code: the starts of its instructions, and its end. A build fails wherever a variable starts or ends
at no boundary, or a frame stands at none (`Draft.build_of_strays`). Ends and frames are looked up
modulo `2 ^ 16`, though, so those that lie a multiple of it beyond a boundary are taken for the
boundary (`Draft.build_wrapped`).
-/

namespace JvmClass

/-! ## Runs that fail -/

namespace Build

variable {α β : Type} {x : Build α} {f : α → Build β}

/-- No run succeeds. -/
def Fails (x : Build α) : Prop := ∀ b y b', x b ≠ .ok y b'

theorem Fails.bind (h : Fails x) : Fails (x >>= f) := by
  intro b z b' hz
  obtain ⟨y, b1, hy, -⟩ := bind_eq_ok.1 hz
  exact h b y b1 hy

theorem fails_bind (h : ∀ b y b', x b = .ok y b' → Fails (f y)) : Fails (x >>= f) := by
  intro b z b' hz
  obtain ⟨y, b1, hy, hz⟩ := bind_eq_ok.1 hz
  exact h b y b1 hy b1 z b' hz

theorem fails_after (h : ∀ y, Fails (f y)) : Fails (x >>= f) := fails_bind fun _ y _ _ => h y

theorem fails_ofExcept {e : Except Error α} (h : ∀ y, e ≠ .ok y) : Fails (ofExcept e) := by
  intro b y b' hy
  exact h y (ofExcept_eq_ok.1 hy).1

theorem Fails.mapM {as : List α} {a : α} (ha : a ∈ as) (h : Fails (f a)) : Fails (as.mapM f) := by
  induction as with
  | nil => cases ha
  | cons a' as ih =>
    rw [List.mapM_cons]
    rcases List.mem_cons.1 ha with rfl | ha
    · exact h.bind
    · exact fails_after fun _ => (ih ha).bind

theorem Fails.filterMapM {f : α → Build (Option β)} {as : List α} {a : α} (ha : a ∈ as)
    (h : Fails (f a)) : Fails (as.filterMapM f) := by
  induction as with
  | nil => cases ha
  | cons a' as ih =>
    rw [List.filterMapM_cons]
    rcases List.mem_cons.1 ha with rfl | ha
    · exact h.bind
    · refine fails_after fun y => ?_
      cases y with
      | none => exact ih ha
      | some y => exact (ih ha).bind

end Build

open Build Relocation

/-! ## Tables -/

/-- The variables of a payload that is about them. -/
def Payload.locals : Payload → List LocalVariable
  | localVariableTable locals | localVariableTypeTable locals => locals
  | _ => []

/-- The offsets of the frames of a payload that holds some. -/
def Payload.frameOffsets : Payload → List Nat
  | stackMapTable frames => Frame.offsets frames
  | _ => []

/-- A table of the code points at something that is no boundary, where all but the starts of
variables are taken modulo `2 ^ 16`. -/
inductive CodeBody.Strays (body : CodeBody) : Prop
  | start {a : Attribute} {v : LocalVariable} (ha : a ∈ body.attributes) (hv : v ∈ a.payload.locals)
    (h : v.start.toNat ∉ Code.offsets body.instructions)
  | stop {a : Attribute} {v : LocalVariable} (ha : a ∈ body.attributes) (hv : v ∈ a.payload.locals)
    (h : (v.start.toNat + v.length.toNat) % 0x10000 ∉ Code.offsets body.instructions)
  | frame {a : Attribute} {o : Nat} (ha : a ∈ body.attributes) (ho : o ∈ a.payload.frameOffsets)
    (h : o % 0x10000 ∉ Code.offsets body.instructions)

/-- Only boundaries are found. -/
theorem OffsetMap.mem_of_find {code : List Instruction} {m : OffsetMap}
    (hm : m.indices = Code.indexByOffset code) {o o' : UInt16} (h : m.find o = .ok o') :
    o.toNat ∈ Code.offsets code := by
  obtain ⟨k, hk, -⟩ := find_eq_ok.1 h
  rw [hm] at hk
  exact Array.mem_of_getElem? (Code.indexByOffset_eq_some_iff.1 hk)

theorem OffsetMap.mem_of_findRange {code : List Instruction} {m : OffsetMap}
    (hm : m.indices = Code.indexByOffset code) {start length : UInt16} {r : UInt16 × UInt16}
    (h : m.findRange start length = .ok r) :
    start.toNat ∈ Code.offsets code ∧
      (start.toNat + length.toNat) % 0x10000 ∈ Code.offsets code := by
  obtain ⟨first, hfirst, h⟩ := exceptBind_eq_ok.1 h
  obtain ⟨last, hlast, -⟩ := exceptBind_eq_ok.1 h
  have hstop := mem_of_find hm hlast
  rw [UInt16.toNat_add] at hstop
  exact ⟨mem_of_find hm hfirst, hstop⟩

section Tables

variable {S : ImportSource} {m : OffsetMap}

theorem Payload.fails_of_locals {p : Payload} {v : LocalVariable} (hv : v ∈ p.locals)
    (h : ∀ r, m.findRange v.start v.length ≠ .ok r) : Fails (payload S (some m) p) := by
  have hfails : Fails (localVariable S (some m) v) := (fails_ofExcept h).bind
  cases p with
  | localVariableTable locals | localVariableTypeTable locals =>
    rw [payload]
    exact (Fails.mapM hv hfails).bind
  | _ => cases hv

theorem fails_framesFrom {frames : List Frame} {before : Option Nat} {previous : Option UInt16}
    {o : Nat} (ho : o ∈ Frame.offsetsFrom before frames)
    (h : ∀ o', m.find (UInt16.ofNat o) ≠ .ok o') :
    Fails (framesFrom S (some m) previous (frames.zip (Frame.offsetsFrom before frames))) := by
  induction frames generalizing before previous with
  | nil => cases ho
  | cons frame frames ih =>
    rw [Frame.offsetsFrom_cons] at ho ⊢
    rw [List.zip_cons_cons, framesFrom]
    rcases List.mem_cons.1 ho with rfl | ho
    · exact (fails_ofExcept h).bind
    · exact fails_after fun _ => fails_after fun _ => (ih ho).bind

theorem Payload.fails_of_frames {p : Payload} {o : Nat} (ho : o ∈ p.frameOffsets)
    (h : ∀ o', m.find (UInt16.ofNat o) ≠ .ok o') : Fails (payload S (some m) p) := by
  cases p with
  | stackMapTable frames =>
    rw [payload, frames_eq]
    rw [frameOffsets, Frame.offsets_eq] at ho
    exact (fails_framesFrom ho h).bind
  | _ => cases ho

theorem fails_attribute? {moved : Option OffsetMap} {a : Attribute}
    (h : Fails (payload S moved a.payload)) : Fails (attribute? S moved a) := by
  have hkept : ¬a.IsLeftOut := by
    -- The payloads that are left out could be copied as they are.
    rintro (⟨methods, e⟩ | ⟨bytes, e⟩) <;> rw [e] at h <;> exact h ⟨.empty, .off⟩ _ _ rfl
  obtain ⟨name, p⟩ := a
  rw [attribute?_eq S moved hkept]
  exact fails_after fun _ => h.bind

theorem indices_of_instructions {code : List Instruction} {b b' : Building}
    {placed : List Instruction × OffsetMap} (h : instructions S code b = .ok placed b') :
    placed.2.indices = Code.indexByOffset code := by
  obtain ⟨_, _, -, h⟩ := bind_eq_ok.1 h
  obtain ⟨_, _, -, h⟩ := bind_eq_ok.1 h
  cases h
  rfl

theorem fails_codeBody {body : CodeBody} {a : Attribute} (ha : a ∈ body.attributes)
    (h : ∀ m : OffsetMap, m.indices = Code.indexByOffset body.instructions →
      Fails (attribute? S (some m) a)) : Fails (codeBody S body) := by
  obtain ⟨maxStack, maxLocals, code, handlers, inner⟩ := body
  rw [codeBody_eq]
  refine fails_bind fun _ placed _ hplaced => fails_after fun _ => Fails.bind ?_
  exact Fails.filterMapM ha (h placed.2 (indices_of_instructions hplaced))

/-- Code is not copied unless all of its tables point at boundaries. -/
theorem CodeBody.Strays.fails {body : CodeBody} (h : body.Strays) : Fails (codeBody S body) := by
  cases h with
  | @start a v ha hv h =>
    refine fails_codeBody ha fun m hm => fails_attribute? ?_
    exact Payload.fails_of_locals hv fun _ hr => h (OffsetMap.mem_of_findRange hm hr).1
  | @stop a v ha hv h =>
    refine fails_codeBody ha fun m hm => fails_attribute? ?_
    exact Payload.fails_of_locals hv fun _ hr => h (OffsetMap.mem_of_findRange hm hr).2
  | @frame a o ha ho h =>
    refine fails_codeBody ha fun m hm => fails_attribute? ?_
    refine Payload.fails_of_frames ho fun o' hr => h ?_
    have hmem := OffsetMap.mem_of_find hm hr
    rwa [UInt16.toNat_ofNat'] at hmem

end Tables

/-! ## What holds the code -/

section Holders

variable {S : ImportSource} {name : UInt16} {body : CodeBody} (h : body.Strays)

include h

/-- Code that cannot be copied is in an attribute that cannot be. -/
theorem Attribute.Inside.exists_fails {as : List Attribute}
    (ha : Attribute.Inside ⟨name, .code body⟩ as) :
    ∃ a ∈ as, ∀ moved, Fails (attribute? S moved a) := by
  induction ha with
  | here hm =>
    refine ⟨_, hm, fun moved => fails_attribute? ?_⟩
    rw [payload]
    exact h.fails.bind
  | @code _ _ outer hm _ ih =>
    obtain ⟨a, ha, hfails⟩ := ih
    refine ⟨_, hm, fun moved => fails_attribute? ?_⟩
    rw [payload]
    exact (fails_codeBody ha fun m _ => hfails (some m)).bind
  | @record _ _ components c hm hc _ ih =>
    obtain ⟨a, ha, hfails⟩ := ih
    have hcomponent : Fails (component S c) := by
      obtain ⟨name, descriptor, inner⟩ := c
      exact fails_after fun _ => fails_after fun _ => (Fails.filterMapM ha (hfails none)).bind
    refine ⟨_, hm, fun moved => fails_attribute? ?_⟩
    rw [payload_record]
    exact (Fails.mapM hc hcomponent).bind

theorem Attribute.Inside.fails {as : List Attribute}
    (ha : Attribute.Inside ⟨name, .code body⟩ as) : Fails (attributes S as) := by
  obtain ⟨a, ha, hfails⟩ := ha.exists_fails (S := S) h
  rw [attributes_eq]
  exact Fails.filterMapM ha (hfails none)

namespace Draft

theorem fails_copyMember {m : Member} (ha : Attribute.Inside ⟨name, .code body⟩ m.attributes)
    (access : Access) : Fails (copyMember S m access) :=
  fails_after fun _ => fails_after fun _ => (ha.fails h).bind

omit h in
theorem fails_replaceCodeAfter {emitted : Build Attribute} {a : Attribute} {old : List Attribute}
    (ha : a ∈ Attribute.others old) (h : Fails (attribute? S none a)) (done : List Attribute)
    (pending : Bool) : Fails (replaceCodeAfter S emitted done pending old) := by
  induction old generalizing done pending with
  | nil => cases ha
  | cons a' rest ih =>
    -- All attributes without code are treated alike, so this case is stated once.
    have hcopy (ha : a ∈ a' :: Attribute.others rest)
        {f : Option Attribute → Build (List Attribute × Bool)}
        (hkept : ∀ a, f (some a) = replaceCodeAfter S emitted (a :: done) pending rest)
        (hleft : f none = replaceCodeAfter S emitted done pending rest) :
        Fails (attribute? S none a' >>= f) := by
      rcases List.mem_cons.1 ha with rfl | ha
      · exact h.bind
      · refine fails_after fun copy => ?_
        cases copy with
        | none => exact hleft ▸ ih ha done pending
        | some a' => exact hkept a' ▸ ih ha (a' :: done) pending
    obtain ⟨i, p⟩ := a'
    cases p with
    | code body =>
      have ha : a ∈ Attribute.others rest := ha
      cases pending with
      | true => exact fails_after fun a' => ih ha (a' :: done) false
      | false => exact ih ha done false
    | _ => exact hcopy ha (fun _ => rfl) rfl

end Draft

end Holders

/-! ## Builds -/

namespace Draft

/-- The attribute is among what the draft has of its base class, at any depth. New code takes the
place of the old. -/
inductive Copies (d : Draft) (a : Attribute) : Prop
  | own {c : ClassFile} (hc : d.base = some c) (ha : a.Inside c.attributes)
  | field {f : MemberDraft} {m : Member} (hf : f ∈ d.fields) (hm : f.base? = some m)
    (ha : a.Inside m.attributes)
  | method {m : Member} {key : MemberKey} {access : Option Access}
    (hm : .kept m key access none ∈ d.methods) (ha : a.Inside m.attributes)
  | recoded {m : Member} {key : MemberKey} {access : Option Access} {code : List Command}
    (hm : .kept m key access (some code) ∈ d.methods)
    (ha : a.Inside (Attribute.others m.attributes))

theorem Copies.fails {d : Draft} {name : UInt16} {body : CodeBody}
    (hc : d.Copies ⟨name, .code body⟩) (h : body.Strays) : Fails d.assembleClass := by
  rw [assembleClass_eq]
  refine fails_after fun _ => fails_after fun _ => fails_after fun _ => fails_after fun _ => ?_
  cases hc with
  | @own c hbase ha =>
    have hattributes : d.baseAttributes = c.attributes := by
      rw [baseAttributes, hbase]
      rfl
    rw [hattributes]
    exact fails_after fun _ => fails_after fun _ => (ha.fails h).bind
  | @field f m hf hm ha =>
    refine (Fails.mapM hf ?_).bind
    cases f with
    | added => cases hm
    | kept =>
      cases hm
      exact fails_copyMember h ha _
  | method hm ha =>
    refine fails_after fun _ => (Fails.mapM hm ?_).bind
    exact fails_after fun _ => fails_copyMember h ha _
  | recoded hm ha =>
    refine fails_after fun _ => (Fails.mapM hm ?_).bind
    obtain ⟨a, ha, hfails⟩ := ha.exists_fails (S := d.baseSource) h
    exact fails_after fun _ => fails_after fun _ => fails_after fun _ =>
      (fails_replaceCodeAfter ha (hfails none) [] true).bind.bind

theorem Copies.build_error {d : Draft} {name : UInt16} {body : CodeBody}
    (hc : d.Copies ⟨name, .code body⟩) (h : body.Strays) : ∃ e, d.build = .error e := by
  cases hd : d.build with
  | error e => exact ⟨e, rfl⟩
  | ok r =>
    obtain ⟨-, b, hr⟩ := build_eq_ok.1 hd
    exact absurd hr (hc.fails h _ r b)

theorem exists_kept {c : ClassFile} {ms : List Member} {ks : List MemberDraft}
    (h : ms.mapM (keep c) = .ok ks) {m : Member} (hm : m ∈ ms) :
    ∃ key, .kept m key none none ∈ ks := by
  obtain ⟨k, hk, hkeep⟩ := exists_of_forall₂ (mapM_eq_ok_iff.1 h).flip m hm
  obtain ⟨key, -, -, rfl⟩ := keep_eq_ok.1 hkeep
  exact ⟨key, hk⟩

theorem copies_of_contains {c : ClassFile} {d : Draft} (hd : ofClass c = .ok d) {a : Attribute}
    (ha : c.Contains a) : d.Copies a := by
  obtain ⟨hfields, hmethods, -, -, -, hbase, -⟩ := ofClass_eq_ok.1 hd
  rcases ha with ha | ⟨m, hm | hm, ha⟩
  · exact .own hbase ha
  · obtain ⟨key, hk⟩ := exists_kept hfields hm
    exact .field hk rfl ha
  · obtain ⟨key, hk⟩ := exists_kept hmethods hm
    exact .method hk ha

/-- A class cannot be built again if its code has a table that points outside, nor can anything
that has the code be built from it. -/
theorem build_of_strays {c : ClassFile} {d : Draft} (hd : ofClass c = .ok d) {name : UInt16}
    {body : CodeBody} (h : body.Strays) :
    (c.Contains ⟨name, .code body⟩ → ∃ e, d.build = .error e) ∧
      ∀ edits, (d.applyAll edits).Copies ⟨name, .code body⟩ →
        ∃ e, (d.applyAll edits).build = .error e :=
  ⟨fun hc => (copies_of_contains hd hc).build_error h, fun _ hc => hc.build_error h⟩

/-! ## Tables beyond the code -/

/-- The code of a method that only returns, with a variable behind it and a second frame. -/
def idleBody (length delta : UInt16) : CodeBody :=
  ⟨0, 1, [.simple .vreturn], [], [⟨6, .localVariableTable [⟨1, length, 8, 9, 0⟩]⟩,
    ⟨7, .stackMapTable [.same 0, .sameExtended delta]⟩]⟩

def idleMethod (length delta : UInt16) : Member := ⟨⟨9⟩, 3, 4, [⟨5, .code (idleBody length delta)⟩]⟩

def idleClass (length delta : UInt16) : ClassFile :=
  ⟨0, 49, ⟨#[.utf8 "A", .classRef 1, .utf8 "m", .utf8 "()V", .utf8 "Code",
      .utf8 "LocalVariableTable", .utf8 "StackMapTable", .utf8 "x", .utf8 "I"]⟩, ⟨0x21⟩, 2, 0, [],
    [], [idleMethod length delta], []⟩

def idleDraft (length delta : UInt16) : Draft :=
  { base := some (idleClass length delta), thisClass := "A", major := 49, minor := 0,
    access := ⟨0x21⟩, superClass := none, interfaces := [], fields := [],
    methods := [.kept (idleMethod length delta) ⟨"m", "()V"⟩ none none], failure := none }

theorem ofClass_idle (length delta : UInt16) :
    ofClass (idleClass length delta) = .ok (idleDraft length delta) := by
  cbv

theorem contains_idle (length delta : UInt16) :
    (idleClass length delta).Contains ⟨5, .code (idleBody length delta)⟩ :=
  .inr ⟨_, .inr List.mem_cons_self, .here List.mem_cons_self⟩

theorem offsets_idle (length delta : UInt16) :
    Code.offsets (idleBody length delta).instructions = #[0, 1] := by
  rfl

/-- A variable that ends five bytes behind the code. -/
theorem build_of_strays_idle :
    ofClass (idleClass 5 0) = .ok (idleDraft 5 0) ∧ (idleBody 5 0).Strays ∧
      (idleClass 5 0).Contains ⟨5, .code (idleBody 5 0)⟩ ∧
      (∃ e, (idleDraft 5 0).build = .error e) ∧
      ∃ e, ((idleDraft 5 0).applyAll [.access ⟨0x31⟩]).build = .error e := by
  have hstrays : (idleBody 5 0).Strays := by
    refine .stop (v := ⟨1, 5, 8, 9, 0⟩) List.mem_cons_self List.mem_cons_self ?_
    rw [offsets_idle]
    simp
  have hcopies : ((idleDraft 5 0).applyAll [.access ⟨0x31⟩]).Copies ⟨5, .code (idleBody 5 0)⟩ :=
    .method List.mem_cons_self (.here List.mem_cons_self)
  obtain ⟨hrebuild, hedited⟩ := build_of_strays (ofClass_idle 5 0) hstrays
  exact ⟨ofClass_idle 5 0, hstrays, contains_idle 5 0, hrebuild (contains_idle 5 0),
    hedited _ hcopies⟩

def wrappedBody : CodeBody := idleBody 0xFFFF 0xFFFF

def wrappedMethod : Member := idleMethod 0xFFFF 0xFFFF

/-- A class whose variable ends, and whose second frame stands, `2 ^ 16` bytes behind the start of
its code. -/
def wrappedClass : ClassFile := idleClass 0xFFFF 0xFFFF

def wrappedDraft : Draft := idleDraft 0xFFFF 0xFFFF

def wrappedPool : Bytes :=
  [0, 10, 1, 0, 1, 0x41, 7, 0, 1, 1, 0, 1, 0x6D, 1, 0, 3, 0x28, 0x29, 0x56, 1, 0, 4, 0x43, 0x6F,
    0x64, 0x65, 1, 0, 18, 0x4C, 0x6F, 0x63, 0x61, 0x6C, 0x56, 0x61, 0x72, 0x69, 0x61, 0x62, 0x6C,
    0x65, 0x54, 0x61, 0x62, 0x6C, 0x65, 1, 0, 13, 0x53, 0x74, 0x61, 0x63, 0x6B, 0x4D, 0x61, 0x70,
    0x54, 0x61, 0x62, 0x6C, 0x65, 1, 0, 1, 0x78, 1, 0, 1, 0x49]

def wrappedAttribute : Bytes :=
  [0, 5, 0, 0, 0, 43, 0, 0, 0, 1, 0, 0, 0, 1, 0xB1, 0, 0, 0, 2] ++
    [0, 6, 0, 0, 0, 12, 0, 1, 0, 1, 0xFF, 0xFF, 0, 8, 0, 9, 0, 0] ++
    [0, 7, 0, 0, 0, 6, 0, 2, 0, 0xFB, 0xFF, 0xFF]

def wrapped : Bytes :=
  [0xCA, 0xFE, 0xBA, 0xBE, 0, 0, 0, 49] ++ wrappedPool ++
    [0, 0x21, 0, 2, 0, 0, 0, 0, 0, 0, 0, 1, 0, 9, 0, 3, 0, 4, 0, 1] ++ wrappedAttribute ++ [0, 0]

theorem spells_wrapped (depth : Nat) :
    (Attribute.mk 5 (.code wrappedBody)).Spells wrappedClass.pool (depth + 2) [[0xB1]]
      wrappedAttribute := by
  have hdecode : Instruction.decode wrappedClass.pool [0xB1] = .ok [.simple .vreturn] := by
    refine Code.decode_eq_ok_iff.2 ⟨Code.SpellsFrom.of_encode ?_ ?_ (by rfl), ?_⟩
    · exact List.forall_mem_singleton.2 ⟨rfl, by simp [Instruction.poolIndex?]⟩
    · simp [Instruction.InReach, Instruction.targets]
    · simp [Code.TargetsIn, Instruction.targets]
  have hlocals : Attribute.Spells wrappedClass.pool (depth + 1)
      ⟨6, .localVariableTable [⟨1, 0xFFFF, 8, 9, 0⟩]⟩ []
      [0, 6, 0, 0, 0, 12, 0, 1, 0, 1, 0xFF, 0xFF, 0, 8, 0, 9, 0, 0] :=
    ⟨"LocalVariableTable", _, by cbv, by decide, ⟨rfl, trivial, rfl, rfl⟩, rfl⟩
  have hfirst : (Frame.same 0).IsReadable := by
    show 0 < 64
    decide
  have hframes : Attribute.Spells wrappedClass.pool (depth + 1)
      ⟨7, .stackMapTable [.same 0, .sameExtended 0xFFFF]⟩ []
      [0, 7, 0, 0, 0, 6, 0, 2, 0, 0xFB, 0xFF, 0xFF] :=
    ⟨"StackMapTable", _, by cbv, by decide,
      ⟨rfl, List.forall_mem_cons.2 ⟨hfirst, List.forall_mem_singleton.2 trivial⟩, rfl, rfl⟩, rfl⟩
  have hall := GathersAll.cons hlocals (.cons hframes .nil)
  have htable : SpellsTable (Attribute.Spells wrappedClass.pool (depth + 1))
      wrappedBody.attributes [] _ := ⟨by decide, _, hall, rfl⟩
  have hbody : CodeBody.SpellsWith wrappedClass.pool
      (Attribute.Spells wrappedClass.pool (depth + 1)) wrappedBody [[0xB1]] _ :=
    ⟨_, [], _, by decide, hdecode, by decide, htable, rfl, rfl⟩
  exact ⟨"Code", _, by cbv, by decide, ⟨rfl, hbody⟩, rfl⟩

theorem read_wrapped : ClassFile.read wrapped = .ok wrappedClass := by
  have hreadable : wrappedClass.pool.IsReadable :=
    ⟨by decide, wrappedClass.pool.slots.toList, rfl,
      by simp [wrappedClass, idleClass, Constant.IsReadable]⟩
  have hencode : wrappedClass.pool.encode = .ok wrappedPool := by rfl
  have hvalid : wrappedClass.IsValid :=
    { minMajor_le := by decide
      le_maxMajor := by decide
      pool := by cbv
      thisClass := ⟨"A", by cbv⟩
      superClass := fun h => absurd rfl h
      bootstrap := by cbv }
  have hmethod : wrappedMethod.Spells wrappedClass.pool 2 [[0xB1]]
      ([0, 9, 0, 3, 0, 4, 0, 1] ++ wrappedAttribute) :=
    ⟨_, .singleton (spells_wrapped 0), rfl⟩
  refine ClassFile.read_of_method hvalid hreadable hencode rfl rfl rfl rfl hmethod ?_
  simp only [wrapped, List.append_assoc]
  rfl

/-- The code stays where it was. -/
def wrappedMap : OffsetMap :=
  ⟨Code.indexByOffset [.simple .vreturn], Code.offsets [.simple .vreturn]⟩

theorem find_wrapped : wrappedMap.find 0 = .ok 0 ∧ wrappedMap.find 1 = .ok 1 :=
  ⟨OffsetMap.find_eq_ok.2 ⟨0, Code.indexByOffset_eq_some_iff.2 rfl, rfl⟩,
    OffsetMap.find_eq_ok.2 ⟨1, Code.indexByOffset_eq_some_iff.2 rfl, rfl⟩⟩

section Runs

variable {S : ImportSource} {b b1 b2 : Building}

theorem instructions_wrapped :
    instructions S [.simple .vreturn] b = .ok ([.simple .vreturn], wrappedMap) b := by
  have hassemble (resolve : UInt32 → Except Error Nat) :
      Code.assemble [.simple .vreturn] resolve = .ok ⟨[0xB1], Code.offsets [.simple .vreturn],
        [.simple .vreturn]⟩ := by
    refine Code.assemble_eq_ok_iff.2 ⟨by decide, Code.placedFrom_self ?_, rfl, rfl⟩
    simp [Instruction.targets]
  have hmap : [Instruction.simple .vreturn].mapM (instruction S) b = .ok [.simple .vreturn] b := rfl
  rw [instructions, bind_run hmap, bind_run (ofExcept_eq_ok.2 ⟨hassemble _, rfl⟩)]
  rfl

theorem locals_wrapped {x i : UInt16} (hx : index S 8 b = .ok x b1) (hi : index S 9 b1 = .ok i b2) :
    payload S (some wrappedMap) (.localVariableTable [⟨1, 0xFFFF, 8, 9, 0⟩]) b =
      .ok (.localVariableTable [⟨1, 0, x, i, 0⟩]) b2 := by
  obtain ⟨h0, h1⟩ := find_wrapped
  have hrange : wrappedMap.findRange 1 0xFFFF = .ok (1, 0) :=
    exceptBind_eq_ok.2 ⟨1, h1, exceptBind_eq_ok.2 ⟨0, h0, rfl⟩⟩
  exact localVariableTable_run hrange hx hi

theorem frames_wrapped :
    payload S (some wrappedMap) (.stackMapTable [.same 0, .sameExtended 0xFFFF]) b =
      .ok (.stackMapTable [.same 0, .sameExtended 0xFFFF]) b := by
  obtain ⟨h0, -⟩ := find_wrapped
  have hfirst : wrappedMap.find (UInt16.ofNat 0) = .ok 0 := h0
  have hsecond : wrappedMap.find (UInt16.ofNat 65536) = .ok 0 := h0
  rw [payload, frames_eq]
  show (framesFrom _ _ _ [(_, 0), (_, 65536)] >>= _ : Build Payload) _ = _
  simp only [framesFrom, moveOffset, hfirst, hsecond, Frame.withDelta, Frame.mapTypes]
  rfl

end Runs

theorem codeBody_wrapped {g : GrowingPool} (hfit : g.pool.size + 4 < 0xFFFF) :
    ∃ body' locals x i g',
      codeBody (importSource wrappedClass) wrappedBody ⟨g, .off⟩ = .ok body' ⟨g', .off⟩ ∧
      ⟨locals, .localVariableTable [⟨1, 0, x, i, 0⟩]⟩ ∈ body'.attributes ∧
      g'.pool.size ≤ g.pool.size + 4 := by
  have text {i j : UInt16} {s : String} {g g' : GrowingPool}
      (hi : wrappedClass.pool.get? i = some (.utf8 s)) (h : Grow.text s g = .ok j g') :
      index (importSource wrappedClass) i ⟨g, .off⟩ = .ok j ⟨g', .off⟩ :=
    index_text hi h
  obtain ⟨locals, g1, h1, hsize1⟩ :=
    Grow.text_succeeds (s := "LocalVariableTable") (g := g) (by decide) (by omega)
  obtain ⟨x, g2, h2, hsize2⟩ := Grow.text_succeeds (s := "x") (g := g1) (by decide) (by omega)
  obtain ⟨i, g3, h3, hsize3⟩ := Grow.text_succeeds (s := "I") (g := g2) (by decide) (by omega)
  obtain ⟨frames, g4, h4, hsize4⟩ :=
    Grow.text_succeeds (s := "StackMapTable") (g := g3) (by decide) (by omega)
  have hnil : [].filterMapM (attribute? (importSource wrappedClass) (some wrappedMap)) ⟨g4, .off⟩ =
      .ok [] ⟨g4, .off⟩ := rfl
  have hframes := filterMapM_attribute_run rfl (text (i := 7) rfl h4) frames_wrapped hnil
  have hinner := filterMapM_attribute_run rfl (text (i := 6) rfl h1)
    (locals_wrapped (text rfl h2) (text rfl h3)) hframes
  rw [wrappedBody, idleBody, codeBody_eq, bind_run instructions_wrapped]
  exact ⟨_, locals, x, i, g4, (bind_run rfl).trans (bind_run hinner), List.mem_cons_self, by omega⟩

theorem copyMember_wrapped {g : GrowingPool} (hfit : g.pool.size + 7 < 0xFFFF) :
    ∃ m' locals x i g',
      copyMember (importSource wrappedClass) wrappedMethod ⟨9⟩ ⟨g, .off⟩ = .ok m' ⟨g', .off⟩ ∧
      (Attribute.mk locals (.localVariableTable [⟨1, 0, x, i, 0⟩])).Inside m'.attributes ∧
      g'.pool.size ≤ g.pool.size + 7 := by
  obtain ⟨name, g1, h1, hsize1⟩ := Grow.text_succeeds (s := "m") (g := g) (by decide) (by omega)
  obtain ⟨descriptor, g2, h2, hsize2⟩ :=
    Grow.text_succeeds (s := "()V") (g := g1) (by decide) (by omega)
  obtain ⟨code, g3, h3, hsize3⟩ := Grow.text_succeeds (s := "Code") (g := g2) (by decide) (by omega)
  obtain ⟨body', locals, x, i, g4, h4, hlocals, hsize4⟩ := codeBody_wrapped (g := g3) (by omega)
  have hpayload : payload (importSource wrappedClass) none (.code wrappedBody) ⟨g3, .off⟩ =
      .ok (.code body') ⟨g4, .off⟩ := by
    rw [payload, bind_run h4]
    rfl
  have hnil : [].filterMapM (attribute? (importSource wrappedClass) none) ⟨g4, .off⟩ =
      .ok [] ⟨g4, .off⟩ := rfl
  have hattributes := filterMapM_attribute_run rfl (index_text (i := 5) rfl h3) hpayload hnil
  rw [copyMember, attributes_eq]
  refine ⟨⟨⟨9⟩, name, descriptor, [⟨code, .code body'⟩]⟩, locals, x, i, g4, ?run, ?inside, by omega⟩
  case run =>
    refine (bind_run (index_text rfl h1)).trans ?_
    refine (bind_run (index_text rfl h2)).trans ?_
    exact bind_run hattributes
  case inside => exact .code List.mem_cons_self (.here hlocals)

/-- Ends of variables and offsets of frames wrap: `2 ^ 16` is no boundary of the code, but it is
taken for the first one, and the variable comes out empty. -/
theorem build_wrapped :
    ClassFile.read wrapped = .ok wrappedClass ∧
      wrappedClass.Contains ⟨5, .code wrappedBody⟩ ∧
      (∃ a ∈ wrappedBody.attributes, ∃ v ∈ a.payload.locals,
        v.start.toNat + v.length.toNat ∉ Code.offsets wrappedBody.instructions) ∧
      (∃ a ∈ wrappedBody.attributes, ∃ o ∈ a.payload.frameOffsets,
        o ∉ Code.offsets wrappedBody.instructions) ∧
      ofClass wrappedClass = .ok wrappedDraft ∧
      ∃ r locals x i, wrappedDraft.build = .ok r ∧
        r.Contains ⟨locals, .localVariableTable [⟨1, 0, x, i, 0⟩]⟩ := by
  have hlocal : ∃ a ∈ wrappedBody.attributes, ∃ v ∈ a.payload.locals,
      v.start.toNat + v.length.toNat ∉ Code.offsets wrappedBody.instructions := by
    refine ⟨_, List.mem_cons_self, _, List.mem_cons_self, ?_⟩
    rw [wrappedBody, offsets_idle]
    simp
  have hframe : ∃ a ∈ wrappedBody.attributes, ∃ o ∈ a.payload.frameOffsets,
      o ∉ Code.offsets wrappedBody.instructions := by
    refine ⟨_, List.mem_cons_of_mem _ List.mem_cons_self, 65536,
      List.mem_cons_of_mem _ List.mem_cons_self, ?_⟩
    rw [wrappedBody, offsets_idle]
    simp
  obtain ⟨thisClass, g1, h1, -, -, hsize1⟩ :=
    classRef_run (P := fun _ => True) GrowingPool.inv_empty "A" trivial trivial (by decide)
      (by decide)
  have hsize1 : g1.pool.size ≤ 2 := hsize1
  obtain ⟨m', locals, x, i, g2, h2, hinside, hsize2⟩ := copyMember_wrapped (g := g1) (by omega)
  have hmethods : [MemberDraft.kept wrappedMethod ⟨"m", "()V"⟩ none none].mapM
      (buildMethod (importSource wrappedClass)) ⟨g1, .off⟩ = .ok [m'] ⟨g2, .off⟩ := by
    rw [List.mapM_cons]
    exact bind_eq_ok.2 ⟨_, _, h2, rfl⟩
  obtain ⟨tail, b, h3⟩ := buildBootstrap_run (g := g2) (by omega)
  exact ⟨read_wrapped, contains_idle _ _, hlocal, hframe, ofClass_idle _ _, _, locals, x, i,
    build_of_runs ⟨rfl, rfl, rfl⟩ h1 rfl hmethods rfl h3,
    .inr ⟨m', .inr List.mem_cons_self, hinside⟩⟩

end Draft

end JvmClass
