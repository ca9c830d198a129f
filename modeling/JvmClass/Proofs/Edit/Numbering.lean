import JvmClass.Proofs.Edit.FixedPoint
import JvmClass.Proofs.Relocation.Lockstep

/-!
# The numbering of a pool does not matter

Two classes that are the same but for the numbers of their entries are built as the same bytes, or
neither is built (`build_of_alike`). They may number entries in any way, have entries more than once
or for nothing, and differ in the attributes that are left out: raw ones, and the table of bootstrap
methods, which matters only in what dynamic entries stand for.
-/

namespace JvmClass

open Relocation

/-- The classes are the same once every index is replaced by what it stands for. -/
structure ClassFile.Alike (c c' : ClassFile) : Prop where
  minor : c'.minor = c.minor
  major : c'.major = c.major
  access : c'.access = c.access
  thisClass : Corresponds (Draft.importSource c) c.thisClass (Draft.importSource c') c'.thisClass
  superClass :
    CorrespondsOptional (Draft.importSource c) c.superClass (Draft.importSource c') c'.superClass
  interfaces :
    List.Forall₂ (Corresponds (Draft.importSource c) · (Draft.importSource c') ·) c.interfaces
      c'.interfaces
  fields :
    List.Forall₂ (Member.Alike (Draft.importSource c) (Draft.importSource c')) c.fields c'.fields
  methods :
    List.Forall₂ (Member.Alike (Draft.importSource c) (Draft.importSource c')) c.methods c'.methods
  attributes :
    Attribute.AllAlike (Draft.importSource c) (Draft.importSource c') c.attributes c'.attributes

section Names

variable {S S' : ImportSource} {i j : UInt16}

theorem Corresponds.text_iff (h : Corresponds S i S' j) {s : String} :
    S.pool.text i = .ok s ↔ S'.pool.text j = .ok s := by
  rw [Pool.text_eq_ok, Pool.text_eq_ok, ← ImportSource.denotes_text_iff,
    ← ImportSource.denotes_text_iff, h]

theorem Corresponds.className_iff (h : Corresponds S i S' j) {name : String} :
    S.pool.className i = .ok name ↔ S'.pool.className j = .ok name := by
  rw [← ImportSource.denotes_classRef_iff, ← ImportSource.denotes_classRef_iff, h]

end Names

theorem Corresponds.of_denotes {S S' : ImportSource} {i j : UInt16} {t : Symbol} (h : S.Denotes i t)
    (h' : S'.Denotes j t) : Corresponds S i S' j := by
  intro u
  constructor
  · intro hu
    rwa [hu.unique h]
  · intro hu
    rwa [hu.unique h']

theorem CorrespondsOptional.zero {S S' : ImportSource} : CorrespondsOptional S 0 S' 0 := by
  have hzero (S : ImportSource) (t : Symbol) : ¬S.Denotes 0 t := by
    rintro ⟨depth, h⟩
    cases depth <;> cases h
  exact ⟨Iff.rfl, fun t => iff_of_false (hzero S t) (hzero S' t)⟩

namespace Draft

variable {c c' : ClassFile}

theorem superName?_iff_of_alike (h : c.Alike c') {name : Option String} :
    c.superName? = .ok name ↔ c'.superName? = .ok name := by
  obtain ⟨hzero, hagree⟩ := h.superClass
  have hname (s : String) : c.pool.className c.superClass = .ok s ↔
    c'.pool.className c'.superClass = .ok s := hagree.className_iff
  unfold ClassFile.superName?
  by_cases hs : c.superClass = 0
  · rw [if_pos hs, if_pos (hzero.1 hs)]
  · rw [if_neg hs, if_neg fun hs' => hs (hzero.2 hs')]
    have hsome (x : Except Error String) :
        some <$> x = .ok name ↔ ∃ s, x = .ok s ∧ some s = name := by
      cases x <;> simp
    simp only [hsome, hname]

theorem classNames_iff_of_corresponds {is js : List UInt16}
    (h : List.Forall₂ (Corresponds (importSource c) · (importSource c') ·) is js)
    {names : List String} :
    is.mapM c.pool.className = .ok names ↔ js.mapM c'.pool.className = .ok names := by
  induction h generalizing names with
  | nil => exact Iff.rfl
  | @cons i j _ _ hi _ ih =>
    have hname (s : String) : c.pool.className i = .ok s ↔ c'.pool.className j = .ok s :=
      hi.className_iff
    simp only [mapM_cons_eq_ok, hname, ih]

theorem exists_keep_iff {m m' : Member} (h : m.Alike (importSource c) (importSource c') m') :
    (∃ k, keep c m = .ok k) ↔ ∃ k, keep c' m' = .ok k := by
  have hname (s : String) : c.memberName m = .ok s ↔ c'.memberName m' = .ok s := h.name.text_iff
  have hdescriptor (s : String) : c.memberDescriptor m = .ok s ↔ c'.memberDescriptor m' = .ok s :=
    h.descriptor.text_iff
  simp only [keep_eq_ok, hname, hdescriptor]
  constructor
  · rintro ⟨_, key, hn, hd, -⟩
    exact ⟨_, key, hn, hd, rfl⟩
  · rintro ⟨_, key, hn, hd, -⟩
    exact ⟨_, key, hn, hd, rfl⟩

theorem exists_mapM_iff {α β γ δ : Type} {f : α → Except Error γ} {f' : β → Except Error δ}
    {as : List α} {bs : List β}
    (h : List.Forall₂ (fun a b => (∃ y, f a = .ok y) ↔ ∃ y, f' b = .ok y) as bs) :
    (∃ ys, as.mapM f = .ok ys) ↔ ∃ ys, bs.mapM f' = .ok ys := by
  have cons {α β : Type} (f : α → Except Error β) (a : α) (as : List α) :
      (∃ ys, (a :: as).mapM f = .ok ys) ↔ (∃ y, f a = .ok y) ∧ ∃ ys, as.mapM f = .ok ys := by
    simp only [mapM_cons_eq_ok]
    grind
  induction h with
  | nil => exact ⟨fun _ => ⟨[], rfl⟩, fun _ => ⟨[], rfl⟩⟩
  | cons hab _ ih => exact (cons ..).trans ((and_congr hab ih).trans (cons ..).symm)

/-- A draft of a class can be made if one can be made of the other. -/
theorem exists_ofClass_iff (h : c.Alike c') :
    (∃ d, ofClass c = .ok d) ↔ ∃ d, ofClass c' = .ok d := by
  have parts (c : ClassFile) : (∃ d, ofClass c = .ok d) ↔
      (∃ ks, c.fields.mapM (keep c) = .ok ks) ∧ (∃ ks, c.methods.mapM (keep c) = .ok ks) ∧
      (∃ name, c.className = .ok name) ∧ (∃ name, c.superName? = .ok name) ∧
      ∃ names, c.interfaceNames = .ok names := by
    simp only [ofClass, exceptBind_eq_ok]
    constructor
    · rintro ⟨_, fields, hf, methods, hm, name, hn, super, hs, interfaces, hi, -⟩
      exact ⟨⟨_, hf⟩, ⟨_, hm⟩, ⟨_, hn⟩, ⟨_, hs⟩, ⟨_, hi⟩⟩
    · rintro ⟨⟨_, hf⟩, ⟨_, hm⟩, ⟨_, hn⟩, ⟨_, hs⟩, ⟨_, hi⟩⟩
      exact ⟨_, _, hf, _, hm, _, hn, _, hs, _, hi, rfl⟩
  rw [parts, parts]
  refine and_congr ?_ (and_congr ?_ (and_congr ?_ (and_congr ?_ ?_)))
  · exact exists_mapM_iff (h.fields.imp fun _ _ => exists_keep_iff)
  · exact exists_mapM_iff (h.methods.imp fun _ _ => exists_keep_iff)
  · exact exists_congr fun name => h.thisClass.className_iff
  · exact exists_congr fun name => superName?_iff_of_alike h
  · exact exists_congr fun names => classNames_iff_of_corresponds h.interfaces

/-! ## Building in lockstep -/

theorem lockstep_copyMember {S S' : ImportSource} {m m' : Member} (h : m.Alike S S' m') :
    Lockstep (copyMember S m m.access) (copyMember S' m' m'.access) := by
  unfold copyMember
  rw [attributes_eq, attributes_eq, h.access]
  exact (lockstep_index h.name).bind fun i => (lockstep_index h.descriptor).bind fun j =>
    (lockstep_attributes none _ _ h.attributes).map (Member.mk m.access i j)

/-- Members as they are kept, copied one by one. -/
theorem lockstep_kept {f f' : MemberDraft → Build Member} {ms ms' : List Member}
    {ks ks' : List MemberDraft}
    (hf : ∀ m m' key key', m.Alike (importSource c) (importSource c') m' →
      Lockstep (f (.kept m key none none)) (f' (.kept m' key' none none)))
    (h : List.Forall₂ (Member.Alike (importSource c) (importSource c')) ms ms')
    (hks : ms.mapM (keep c) = .ok ks) (hks' : ms'.mapM (keep c') = .ok ks') :
    Lockstep (ks.mapM f) (ks'.mapM f') := by
  induction h generalizing ks ks' with
  | nil =>
    cases hks
    cases hks'
    exact lockstep_pure []
  | cons hm _ ih =>
    obtain ⟨k, rest, hk, hrest, rfl⟩ := mapM_cons_eq_ok.1 hks
    obtain ⟨k', rest', hk', hrest', rfl⟩ := mapM_cons_eq_ok.1 hks'
    obtain ⟨key, -, -, rfl⟩ := keep_eq_ok.1 hk
    obtain ⟨key', -, -, rfl⟩ := keep_eq_ok.1 hk'
    rw [List.mapM_cons, List.mapM_cons]
    exact (hf _ _ key key' hm).bind fun m => (ih hrest hrest').map (m :: ·)

theorem lockstep_buildBootstrap : Lockstep buildBootstrap buildBootstrap := by
  have hname := lockstep_grow (x := .text "BootstrapMethods") fun _ _ _ => Iff.rfl
  refine lockstep_get fun g log log' => ?_
  by_cases hempty : g.bootstrap.isEmpty = true
  · rw [if_pos hempty]
    exact lockstep_pure []
  · rw [if_neg hempty]
    exact hname.bind fun i => lockstep_get fun g _ _ => lockstep_pure _

theorem lockstep_assembleClass (h : c.Alike c') {d d' : Draft} (hd : ofClass c = .ok d)
    (hd' : ofClass c' = .ok d') : Lockstep d.assembleClass d'.assembleClass := by
  obtain ⟨hf, hm, hn, hs, hi, hb, hmajor, hminor, haccess, -⟩ := ofClass_eq_ok.1 hd
  obtain ⟨hf', hm', hn', hs', hi', hb', hmajor', hminor', haccess', -⟩ := ofClass_eq_ok.1 hd'
  have hthis : d'.thisClass = d.thisClass :=
    Except.ok.inj (hn'.symm.trans (h.thisClass.className_iff.1 hn))
  have hsuper : d'.superClass = d.superClass :=
    Except.ok.inj (hs'.symm.trans ((superName?_iff_of_alike h).1 hs))
  have hinterfaces : d'.interfaces = d.interfaces :=
    Except.ok.inj (hi'.symm.trans ((classNames_iff_of_corresponds h.interfaces).1 hi))
  have hsource : d.baseSource = importSource c ∧ d.baseAttributes = c.attributes := by
    rw [baseSource, baseAttributes, hb]
    exact ⟨rfl, rfl⟩
  have hsource' : d'.baseSource = importSource c' ∧ d'.baseAttributes = c'.attributes := by
    rw [baseSource, baseAttributes, hb']
    exact ⟨rfl, rfl⟩
  have hnames (name : String) := lockstep_grow (x := .classRef name) fun _ _ _ => Iff.rfl
  have hsuperRef : Lockstep (superRef d.superClass) (superRef d.superClass) := by
    cases d.superClass with
    | none => exact lockstep_pure 0
    | some name => exact hnames name
  have hfields : Lockstep (d.fields.mapM (buildField (importSource c)))
      (d'.fields.mapM (buildField (importSource c'))) :=
    lockstep_kept (fun _ _ _ _ => lockstep_copyMember) h.fields hf hf'
  have hmethods : Lockstep (d.methods.mapM (buildMethod (importSource c)))
      (d'.methods.mapM (buildMethod (importSource c'))) :=
    lockstep_kept (fun _ _ _ _ hm => (lockstep_record _ _).bind fun _ => lockstep_copyMember hm)
      h.methods hm hm'
  rw [assembleClass_eq, assembleClass_eq, hthis, hsuper, hinterfaces, hsource.1, hsource.2,
    hsource'.1, hsource'.2, hmajor, hminor, haccess, hmajor', hminor', haccess', h.major, h.minor,
    h.access, attributes_eq, attributes_eq]
  refine (lockstep_record _ _).bind fun _ => ?_
  refine (hnames d.thisClass).bind fun this => ?_
  refine hsuperRef.bind fun super => ?_
  refine (Lockstep.mapM (List.forall₂_same.2 fun name _ => hnames name)).bind fun interfaces => ?_
  refine hfields.bind fun fields => ?_
  refine hmethods.bind fun methods => ?_
  refine (lockstep_attributes none _ _ h.attributes).bind fun attributes => ?_
  refine lockstep_buildBootstrap.bind fun bootstrap => ?_
  exact lockstep_get fun g _ _ => lockstep_pure _

theorem build_iff_of_alike (h : c.Alike c') (r : ClassFile) :
    (ofClass c >>= build) = .ok r ↔ (ofClass c' >>= build) = .ok r := by
  have hfailure {c : ClassFile} {d : Draft} (hd : ofClass c = .ok d) : d.failure = none :=
    (ofClass_eq_ok.1 hd).2.2.2.2.2.2.2.2.2
  have build_iff {d d' : Draft} (hd : ofClass c = .ok d) (hd' : ofClass c' = .ok d') :
      d.build = .ok r ↔ d'.build = .ok r := by
    have hsteps := lockstep_assembleClass h hd hd' .empty .off .off r
    rw [build_eq_ok, build_eq_ok, hfailure hd, hfailure hd']
    constructor
    · rintro ⟨-, ⟨g, log⟩, hb⟩
      obtain ⟨l, hb'⟩ := (hsteps g).1 ⟨log, hb⟩
      exact ⟨rfl, _, hb'⟩
    · rintro ⟨-, ⟨g, log⟩, hb⟩
      obtain ⟨l, hb'⟩ := (hsteps g).2 ⟨log, hb⟩
      exact ⟨rfl, _, hb'⟩
  simp only [exceptBind_eq_ok]
  constructor
  · rintro ⟨d, hd, hr⟩
    obtain ⟨d', hd'⟩ := (exists_ofClass_iff h).1 ⟨d, hd⟩
    exact ⟨d', hd', (build_iff hd hd').1 hr⟩
  · rintro ⟨d', hd', hr⟩
    obtain ⟨d, hd⟩ := (exists_ofClass_iff h).2 ⟨d', hd'⟩
    exact ⟨d, hd, (build_iff hd hd').2 hr⟩

/-- What a class is built as, if it is, does not depend on how its entries are numbered. -/
theorem build_of_alike (h : c.Alike c') (out : Bytes) :
    (ofClass c >>= build >>= ClassFile.encode) = .ok out ↔
      (ofClass c' >>= build >>= ClassFile.encode) = .ok out := by
  rw [exceptBind_eq_ok, exceptBind_eq_ok]
  exact exists_congr fun r => and_congr_left fun _ => build_iff_of_alike h r

/-! ## A class that is numbered otherwise -/

/-- The entries of the class in another order, with the number and the name of the class twice. -/
def renumberedPool : Bytes :=
  [0, 11, 1, 0, 4, 0x43, 0x6F, 0x64, 0x65, 1, 0, 1, 0x6D, 1, 0, 3, 0x28, 0x29, 0x56, 3, 0, 0, 0, 7,
    1, 0, 1, 0x41, 3, 0, 0, 0, 7, 1, 0, 1, 0x41, 7, 0, 7, 1, 0, 1, 0x58, 1, 0, 16, 0x42, 0x6F, 0x6F,
    0x74, 0x73, 0x74, 0x72, 0x61, 0x70, 0x4D, 0x65, 0x74, 0x68, 0x6F, 0x64, 0x73]

/-- The class with these entries, a table of no bootstrap methods, and a raw attribute. -/
def renumbered : Bytes :=
  [0xCA, 0xFE, 0xBA, 0xBE, 0, 0, 0, 49] ++ renumberedPool ++
    [0, 0x21, 0, 8, 0, 0, 0, 0, 0, 0, 0, 1, 0, 9, 0, 2, 0, 3, 0, 1, 0, 1, 0, 0, 0, 15, 0, 1, 0, 0,
      0, 0, 0, 3, 0x12, 6, 0xB1, 0, 0, 0, 0, 0, 2, 0, 10, 0, 0, 0, 2, 0, 0, 0, 9, 0, 0, 0, 1, 0]

def renumberedClass : ClassFile :=
  ⟨0, 49, ⟨#[.utf8 "Code", .utf8 "m", .utf8 "()V", .integer 7, .utf8 "A", .integer 7, .utf8 "A",
      .classRef 7, .utf8 "X", .utf8 "BootstrapMethods"]⟩, ⟨0x21⟩, 8, 0, [], [],
    [loading 2 3 1 (.constant .ldc 6)], [⟨10, .bootstrapMethods []⟩, ⟨9, .raw [0]⟩]⟩

theorem spells_renumbered (depth : Nat) :
    (loading 2 3 1 (.constant .ldc 6)).Spells renumberedClass.pool (depth + 1) [[0x12, 6, 0xB1]]
      [0, 9, 0, 2, 0, 3, 0, 1, 0, 1, 0, 0, 0, 15, 0, 1, 0, 0, 0, 0, 0, 3, 0x12, 6, 0xB1, 0, 0, 0,
        0] := by
  have hdecode : Instruction.decode renumberedClass.pool [0x12, 6, 0xB1] =
      .ok [.constant .ldc 6, .simple .vreturn] := by
    refine Code.decode_eq_ok_iff.2 ⟨Code.SpellsFrom.of_encode ?_ ?_ (by cbv), ?_⟩
    · simp only [List.forall_mem_cons]
      refine ⟨⟨.inl rfl, ?_⟩, ⟨rfl, by simp [Instruction.poolIndex?]⟩, by simp⟩
      rintro _ _ ⟨⟩ ⟨⟩
      exact ⟨.integer 7, rfl, rfl⟩
    · simp [Instruction.InReach, Instruction.targets]
    · simp [Code.TargetsIn, Instruction.targets]
  have hbody : CodeBody.SpellsWith renumberedClass.pool
      (Attribute.Spells renumberedClass.pool depth)
      ⟨1, 0, [.constant .ldc 6, .simple .vreturn], [], []⟩ [[0x12, 6, 0xB1]]
      [0, 1, 0, 0, 0, 0, 0, 3, 0x12, 6, 0xB1, 0, 0, 0, 0] :=
    .plain (by decide) hdecode 1 0
  have hattribute : Attribute.Spells renumberedClass.pool (depth + 1)
      ⟨1, .code ⟨1, 0, [.constant .ldc 6, .simple .vreturn], [], []⟩⟩ [[0x12, 6, 0xB1]]
      [0, 1, 0, 0, 0, 15, 0, 1, 0, 0, 0, 0, 0, 3, 0x12, 6, 0xB1, 0, 0, 0, 0] :=
    ⟨"Code", _, by cbv, by decide, ⟨rfl, hbody⟩, rfl⟩
  exact ⟨_, .singleton hattribute, rfl⟩

theorem read_renumbered : ClassFile.read renumbered = .ok renumberedClass := by
  have hreadable : renumberedClass.pool.IsReadable :=
    ⟨by decide, renumberedClass.pool.slots.toList, rfl,
      by simp [renumberedClass, Constant.IsReadable]⟩
  have hencode : renumberedClass.pool.encode = .ok renumberedPool := by
    rfl
  obtain ⟨texts, hpool⟩ := Pool.spells_of_encode hreadable hencode
  have hvalid : renumberedClass.IsValid :=
    { minMajor_le := by decide
      le_maxMajor := by decide
      pool := by cbv
      thisClass := ⟨"A", by cbv⟩
      superClass := fun h => absurd rfl h
      bootstrap := by cbv }
  have hbootstrap : Attribute.Spells renumberedClass.pool 1 ⟨10, .bootstrapMethods []⟩ []
      [0, 10, 0, 0, 0, 2, 0, 0] :=
    ⟨"BootstrapMethods", _, Pool.text_eq_ok.2 rfl, by decide, ⟨rfl, trivial, rfl, rfl⟩, rfl⟩
  have hraw : Attribute.Spells renumberedClass.pool 1 ⟨9, .raw [0]⟩ [] [0, 9, 0, 0, 0, 1, 0] := by
    refine ⟨"X", _, Pool.text_eq_ok.2 rfl, by decide, ⟨?_, rfl, rfl⟩, rfl⟩
    intro payload
    cases payload <;> simp [Payload.name?]
  have hall := GathersAll.cons hbootstrap (.cons hraw .nil)
  have hattributes : SpellsTable (Attribute.Spells renumberedClass.pool 1)
      renumberedClass.attributes [] _ := ⟨by decide, _, hall, rfl⟩
  refine ClassFile.read_of_tables hvalid hpool rfl rfl (.singleton (spells_renumbered 0))
    hattributes ?_
  rw [renumbered, List.append_assoc]
  rfl

theorem alike_renumbered : loadClass.Alike renumberedClass := by
  have agree {i j : UInt16} {t : Symbol} (depth : Nat)
      (hi : (importSource loadClass).symbol? depth i = some t)
      (hj : (importSource renumberedClass).symbol? depth j = some t) :
      Corresponds (importSource loadClass) i (importSource renumberedClass) j :=
    .of_denotes ⟨depth, hi⟩ ⟨depth, hj⟩
  have hcode : CodeBody.Alike (importSource loadClass) (importSource renumberedClass)
      ⟨1, 0, [.constant .ldc 1, .simple .vreturn], [], []⟩
      ⟨1, 0, [.constant .ldc 6, .simple .vreturn], [], []⟩ :=
    .mk (.cons (.constant (agree 1 rfl rfl)) (.cons (.plain rfl) .nil)) .nil .nil
  have hmethod : Member.Alike (importSource loadClass) (importSource renumberedClass)
      (loading 4 5 6 (.constant .ldc 1)) (loading 2 3 1 (.constant .ldc 6)) :=
    ⟨rfl, agree 1 rfl rfl, agree 1 rfl rfl, .cons (.mk (agree 1 rfl rfl) (.code hcode)) .nil⟩
  exact ⟨rfl, rfl, rfl, agree 2 rfl rfl, .zero, .nil, .nil, .cons hmethod .nil, .nil⟩

theorem exists_encode_load (access flags : Access) :
    ∃ out, ClassFile.encode { flagged with
        access
        methods := [{ loading 3 4 5 (.constant .ldc 6) with access := flags }] } = .ok out := by
  have hcode : Code.reassemble [.constant .ldc 6, .simple .vreturn] =
      .ok ⟨[0x12, 6, 0xB1], _, _⟩ :=
    Code.reassemble_eq_ok (by simp [Code.TargetsIn, Instruction.targets]) (by decide) rfl
  obtain ⟨method, hmethod⟩ :
      ∃ u, Member.encode { loading 3 4 5 (.constant .ldc 6) with access := flags } = .ok u := by
    rw [Member.encode, loading, Attribute.encodeTable, encodeAttributes, Attribute.encode,
      Payload.encode, CodeBody.encode, hcode]
    exact ⟨_, rfl⟩
  have hpool : flagged.pool.encode = .ok ((withFlags.drop 8).take 31) := by
    rfl
  rw [ClassFile.encode_eq, hpool, ClassFile.encodeBody, concatM_cons, hmethod]
  exact ⟨_, rfl⟩

theorem build_of_alike_renumbered :
    ∃ out, ClassFile.read withLoad = .ok loadClass ∧
      ClassFile.read renumbered = .ok renumberedClass ∧ loadClass.Alike renumberedClass ∧
      (ofClass loadClass >>= build >>= ClassFile.encode) = .ok out ∧
      (ofClass renumberedClass >>= build >>= ClassFile.encode) = .ok out := by
  obtain ⟨out, hout⟩ := exists_encode_load ⟨0x21⟩ ⟨9⟩
  have hbuild : (ofClass loadClass >>= build >>= ClassFile.encode) = .ok out := by
    rw [ofClass_loadClass]
    exact exceptBind_eq_ok.2 ⟨_, build_load ⟨0x21⟩ none, hout⟩
  exact ⟨out, read_withLoad, read_renumbered, alike_renumbered, hbuild,
    (build_of_alike alike_renumbered out).1 hbuild⟩

end Draft

end JvmClass
