import JvmClass.Proofs.Codec.ClassFile
import JvmClass.Proofs.Edit.Building
import JvmClass.Proofs.Edit.Drafts
import Mathlib.Data.List.Perm.Subperm

/-!
# What a build keeps of its base class

Building a draft of a class copies every member that has no new code, and the attributes of the
class, into a new pool. The copy means what the original meant (`build_copies`), whatever edits
the draft went through. It is the same but for the numbers of entries, the offsets into code, and
one choice of instruction: a load whose constant comes to stand beyond the reach of a one-byte
index is widened (`build_widens_load`).
-/

namespace JvmClass.Draft

open Relocation

/-- What the class `r` that was built from a draft of `c` has of a member of that draft. Nothing is
said about new members and members with new code. -/
def CopiedInto (c r : ClassFile) : MemberDraft → Member → Prop
  | .kept m key access none, m' =>
    c.memberName m = .ok key.name ∧ r.memberName m' = .ok key.name ∧
      c.memberDescriptor m = .ok key.descriptor ∧ r.memberDescriptor m' = .ok key.descriptor ∧
      m'.access = access.getD m.access ∧
      Attribute.AllCopied (importSource c) (importSource r) none m.attributes m'.attributes
  | _, _ => True

/-- Some entry of the pool of a class is computed by a bootstrap method. -/
def HasComputed (c : ClassFile) : Prop :=
  ∃ i entry, c.pool.get? i = some entry ∧ entry.bootstrap?.isSome

/-- Where the attributes of `c` are copied, the table of bootstrap methods comes behind them if any
entry needs one. -/
def CopiedAttributes (c r : ClassFile) : Prop :=
  ∃ copies tail, r.attributes = copies ++ tail ∧
    Attribute.AllCopied (importSource c) (importSource r) none c.attributes copies ∧
    (HasComputed r → ∃ name, r.pool.text name = .ok "BootstrapMethods" ∧
      tail = [⟨name, .bootstrapMethods r.bootstrapMethods⟩]) ∧
    (¬HasComputed r → tail = [])

theorem copiedInto_of_copied {c r : ClassFile} {flagged : MemberKey → Access → Prop}
    {recoded : MemberKey → List Command → Prop} {d : MemberDraft} {m' : Member}
    (hd : d.Follows c flagged recoded) (h : d.Copied (importSource c) (importSource r) m') :
    CopiedInto c r d m' := by
  cases d with
  | added => trivial
  | kept m key access code =>
    cases code with
    | some code => trivial
    | none =>
      obtain ⟨hname, hdescriptor, -⟩ := hd
      obtain ⟨haccess, hm⟩ := h m key access rfl
      have hname' := hm.name.text (Pool.text_eq_ok.1 hname)
      have hdescriptor' := hm.descriptor.text (Pool.text_eq_ok.1 hdescriptor)
      exact ⟨hname, Pool.text_eq_ok.2 hname', hdescriptor, Pool.text_eq_ok.2 hdescriptor', haccess,
        hm.attributes⟩

theorem forall₂_copiedInto {c r : ClassFile} {base : List Member}
    {flagged : MemberKey → Access → Prop} {recoded : MemberKey → List Command → Prop}
    {ds : List MemberDraft} {ms : List Member} (hd : MembersFollow c base flagged recoded ds)
    (h : List.Forall₂ (MemberDraft.Copied (importSource c) (importSource r)) ds ms) :
    List.Forall₂ (CopiedInto c r) ds ms := by
  have heach := hd.each
  clear hd
  induction h with
  | nil => exact .nil
  | cons hm _ ih =>
    obtain ⟨hfirst, hrest⟩ := List.forall_mem_cons.1 heach
    exact .cons (copiedInto_of_copied hfirst hm) (ih hrest)

/-- Entries are computed in a built pool exactly if there are bootstrap methods. -/
theorem hasComputed_iff {P : Symbol → Prop} {r : ClassFile} {g : GrowingPool}
    (grows : GrowingPool.empty.Grows P g) (hr : importSource r = g.source) :
    HasComputed r ↔ g.bootstrap.isEmpty = false := by
  have hpool : r.pool = g.pool := congrArg ImportSource.pool hr
  constructor
  · rintro ⟨i, entry, hi, hb⟩
    obtain ⟨m, hm⟩ := Option.isSome_iff_exists.1 hb
    rw [hpool] at hi
    have hlt := grows.inv.bootstrap_lt hi hm
    have hsize : 0 < g.bootstrap.size := Nat.lt_of_le_of_lt (Nat.zero_le _) hlt
    simpa [Array.isEmpty] using Nat.ne_of_gt hsize
  · intro hempty
    have hsize : 0 < g.bootstrap.size := by
      simp only [Array.isEmpty, decide_eq_false_iff_not] at hempty
      omega
    obtain ⟨i, entry, m, hi, hm, -⟩ := grows.uses 0 (Nat.le_refl 0) hsize
    exact ⟨i, entry, by rw [hpool, hi], by rw [hm]; rfl⟩

/-- A build copies what has no new code: the members of the base class that the script left, in
their order and with its flags, and the attributes of the class. -/
theorem build_copies {bytes : Bytes} {c r : ClassFile} {d : Draft} {edits : List Edit}
    (hread : ClassFile.read bytes = .ok c) (hd : ofClass c = .ok d)
    (hr : (d.applyAll edits).build = .ok r) :
    (d.applyAll edits).Follows c edits ∧
      List.Forall₂ (CopiedInto c r) (d.applyAll edits).fields r.fields ∧
      List.Forall₂ (CopiedInto c r) (d.applyAll edits).methods r.methods ∧
      CopiedAttributes c r := by
  have hfollows := (follows_ofClass hd).applyAll edits
  rw [List.nil_append] at hfollows
  have hsource : (d.applyAll edits).baseSource = importSource c := by
    rw [baseSource, hfollows.base]
    rfl
  have hattributes : (d.applyAll edits).baseAttributes = c.attributes := by
    rw [baseAttributes, hfollows.base]
    rfl
  have hsupplies := supplies_of_read hread
  rw [← hsource] at hsupplies
  obtain ⟨g, grows, hg, h⟩ := build_spec Symbol.named_isValid hsupplies hr
  have hfields := h.fields
  have hmethods := h.methods
  obtain ⟨copies, tail, hcopies, htail, hsum⟩ := h.attributes
  rw [hsource] at hfields hmethods hcopies
  rw [hattributes] at hcopies
  refine ⟨hfollows, forall₂_copiedInto hfollows.fields hfields,
    forall₂_copiedInto hfollows.methods hmethods, copies, tail, hsum, hcopies, ?_, ?_⟩
  · intro hc
    have hne : ¬g.bootstrap.isEmpty = true := by
      rw [(hasComputed_iff grows hg).1 hc]
      exact Bool.false_ne_true
    obtain ⟨name, hname, rfl⟩ := (if_neg hne).mp htail
    refine ⟨name, Pool.text_eq_ok.2 (ImportSource.denotes_text_iff.1 hname), ?_⟩
    have hmethods : r.bootstrapMethods = g.bootstrap.toList :=
      congrArg (fun S => S.bootstrap.toList) hg
    rw [hmethods]
  · intro hc
    have he : g.bootstrap.isEmpty = true := by
      rw [hasComputed_iff grows hg, Bool.not_eq_false] at hc
      exact hc
    exact (if_pos he).mp htail

/-! ## Runs that succeed -/

section Run

variable {P : Symbol → Prop} {g : GrowingPool}

theorem text_run (hg : g.Inv P) {s : String} (hp : P (.text s))
    (hs : (Text.encode s).length < 0x10000) (hfit : g.pool.size + 1 < 0xFFFF) :
    ∃ j g', Grow.text s g = .ok j g' ∧ g.Grows P g' ∧ g'.pool.size ≤ g.pool.size + 1 := by
  obtain ⟨j, g', h, hsize⟩ := Grow.text_succeeds hs hfit
  exact ⟨j, g', h, (Grow.enters_text hp g j g' hg h).1, hsize⟩

theorem classRef_run (hg : g.Inv P) (name : String) (hp : P (.text name))
    (hc : P (.classRef name)) (he : (Text.encode name).length < 0x10000)
    (hfit : g.pool.size + 2 < 0xFFFF) :
    ∃ j g', Build.grow (.classRef name) ⟨g, .off⟩ = .ok j ⟨g', .off⟩ ∧ g.Grows P g' ∧
      g'.source.Denotes j (.classRef name) ∧ g'.pool.size ≤ g.pool.size + 2 := by
  obtain ⟨i, g1, h1, -, hsize1⟩ := text_run hg hp he (by omega)
  obtain ⟨j, g2, h2, hsize2⟩ := Grow.add_succeeds (g := g1) (c := .classRef i) rfl
    (show g1.pool.size + 1 < 0xFFFF by omega)
  have hrun : Grow.classRef name g = .ok j g2 := by
    rw [Grow.classRef, bind_run h1, h2]
  obtain ⟨grows, ht⟩ := Grow.enters_classRef hp hc g j g2 hg hrun
  have hsize : g2.pool.size ≤ g1.pool.size + 1 := hsize2
  exact ⟨j, g2, grow_eq_ok.2 ⟨g2, rfl, hrun⟩, grows, ht, by omega⟩

theorem classRefs_run (hp : ∀ name, P (.text name)) (hc : ∀ name, P (.classRef name))
    {names : List String} (he : ∀ name ∈ names, (Text.encode name).length < 0x10000)
    (hg : g.Inv P) (hfit : g.pool.size + 2 * names.length < 0xFFFF) :
    ∃ is g', (names.mapM fun name => Build.grow (.classRef name)) ⟨g, .off⟩ = .ok is ⟨g', .off⟩ ∧
      g.Grows P g' ∧ List.Forall₂ (fun name i => g'.source.Denotes i (.classRef name)) names is ∧
      g'.pool.size ≤ g.pool.size + 2 * names.length := by
  induction names generalizing g with
  | nil => exact ⟨[], g, rfl, .refl hg, .nil, Nat.le_refl _⟩
  | cons name names ih =>
    obtain ⟨hname, hnames⟩ := List.forall_mem_cons.1 he
    rw [List.length_cons] at hfit
    obtain ⟨j, g1, h1, grows1, hj, hsize1⟩ :=
      classRef_run hg name (hp name) (hc name) hname (by omega)
    obtain ⟨is, g2, h2, grows2, his, hsize2⟩ := ih hnames grows1.inv (by omega)
    refine ⟨j :: is, g2, ?_, grows1.trans grows2, .cons (hj.mono grows2.le) his,
      by rw [List.length_cons]; omega⟩
    rw [List.mapM_cons, bind_run h1, bind_run h2]
    rfl

/-- A pool in which different names are entered has an entry for each. -/
theorem length_le_size {G : ImportSource} {names : List String} {is : List UInt16}
    (hn : names.Nodup)
    (h : List.Forall₂ (fun name i => G.Denotes i (.classRef name)) names is) :
    names.length ≤ G.pool.size := by
  have hbound : is.map UInt16.toNat ⊆ List.range' 1 G.pool.size := by
    intro n hm
    obtain ⟨i, hi, rfl⟩ := List.mem_map.1 hm
    obtain ⟨name, -, depth, ht⟩ := exists_of_forall₂ h i hi
    cases depth with
    | zero => cases ht
    | succ depth =>
      obtain ⟨c, hc, -⟩ := ImportSource.symbol?_succ_eq_some_iff.1 ht
      obtain ⟨hpos, hget⟩ := Pool.get?_eq_some_iff.1 hc
      obtain ⟨hlt, -⟩ := List.getElem?_eq_some_iff.1 hget
      have hne : i.toNat ≠ 0 := fun e => hpos (UInt16.toNat_inj.1 e)
      rw [Array.length_toList] at hlt
      rw [List.mem_range'_1]
      unfold Pool.size
      omega
  have hnodup : is.Nodup := by
    clear hbound
    induction h with
    | nil => exact .nil
    | @cons name i names is hi his ih =>
      obtain ⟨hnew, hn⟩ := List.nodup_cons.1 hn
      refine List.nodup_cons.2 ⟨fun hm => ?_, ih hn⟩
      obtain ⟨name', hname', hi'⟩ := exists_of_forall₂ his i hm
      cases ImportSource.Denotes.unique hi hi'
      exact hnew hname'
  have hnodup' : (is.map UInt16.toNat).Nodup :=
    List.pairwise_map.2 (hnodup.imp fun hne e => hne (UInt16.toNat_inj.1 e))
  have hlen := (List.subperm_of_subset hnodup' hbound).length_le
  rwa [List.length_map, List.length_range', ← h.length_eq] at hlen

theorem importEntry_text {S : ImportSource} {i : UInt16} {s : String}
    (h : S.pool.get? i = some (.utf8 s)) (g : GrowingPool) :
    Grow.importEntry S i g = Grow.text s g := by
  rw [Grow.importEntry, Grow.importWithin, bind_run (ofExcept_eq_ok.2 ⟨Pool.get_eq_ok.2 h, rfl⟩)]

theorem index_text {S : ImportSource} {i j : UInt16} {s : String} {g' : GrowingPool}
    (hi : S.pool.get? i = some (.utf8 s)) (h : Grow.text s g = .ok j g') :
    index S i ⟨g, .off⟩ = .ok j ⟨g', .off⟩ :=
  grow_eq_ok.2 ⟨g', rfl, (importEntry_text hi g).trans h⟩

theorem importEntry_integer {S : ImportSource} {i : UInt16} {n : Int32}
    (h : S.pool.get? i = some (.integer n)) (g : GrowingPool) :
    Grow.importEntry S i g = Grow.integer n g := by
  rw [Grow.importEntry, Grow.importWithin, bind_run (ofExcept_eq_ok.2 ⟨Pool.get_eq_ok.2 h, rfl⟩)]

/-- A number that no entry stands for is given the next index. -/
theorem integer_run {n : Int32} (hg : g.Inv (· ≠ .node (.integer n) []))
    (hfit : g.pool.size + 1 < 0xFFFF) :
    ∃ g', Grow.integer n g = .ok g.next g' ∧ g'.pool.size = g.pool.size + 1 := by
  have hnew : ∀ i, g.pool.get? i ≠ some (.integer n) := by
    intro i hc
    obtain ⟨t, ht, hne⟩ := hg.symbols i _ hc trivial
    have hs : g.source.symbol? 1 i = some (.node (.integer n) []) :=
      ImportSource.symbol?_succ_eq_some_iff.2 ⟨_, hc, ImportSource.symbolOf?_plain rfl rfl rfl⟩
    exact hne (ImportSource.Denotes.unique ht ⟨1, hs⟩)
  exact ⟨_, Grow.add_new hg trivial rfl hnew hfit, Pool.size_append ..⟩

theorem buildBootstrap_run (hfit : g.pool.size + 1 < 0xFFFF) :
    ∃ tail b, buildBootstrap ⟨g, .off⟩ = .ok tail b := by
  obtain ⟨i, g', h, -⟩ := Grow.text_succeeds (s := "BootstrapMethods") (by decide) hfit
  have hgrow : Build.grow (.text "BootstrapMethods") ⟨g, .off⟩ = .ok i ⟨g', .off⟩ :=
    grow_eq_ok.2 ⟨g', rfl, h⟩
  show ∃ tail b, (if g.bootstrap.isEmpty then _ else _ : Build (List Attribute)) _ = .ok tail b
  split
  · exact ⟨[], _, rfl⟩
  · rw [bind_run hgrow]
    exact ⟨_, _, rfl⟩

theorem instructions_load {S : ImportSource} {j : UInt16} {load : Opcode}
    (hload : Opcode.ldc.widened j = load) {code : Bytes}
    (hcode : Code.encodeFrom 0 [.constant load j, .simple .vreturn] = .ok code)
    (hend : Code.endFrom 0 [.constant load j, .simple .vreturn] < 0x10000) {g' : GrowingPool}
    (h : index S 1 ⟨g, .off⟩ = .ok j ⟨g', .off⟩) :
    ∃ m, instructions S [.constant .ldc 1, .simple .vreturn] ⟨g, .off⟩ =
      .ok ([.constant load j, .simple .vreturn], m) ⟨g', .off⟩ := by
  have hmap : [Instruction.constant .ldc 1, .simple .vreturn].mapM (instruction S) ⟨g, .off⟩ =
      .ok [.constant load j, .simple .vreturn] ⟨g', .off⟩ := by
    rw [← hload, List.mapM_cons, instruction, bind_assoc, bind_run h]
    rfl
  have hassemble (resolve : UInt32 → Except Error Nat) :
      Code.assemble [.constant load j, .simple .vreturn] resolve = .ok
        ⟨code, Code.offsets [.constant load j, .simple .vreturn],
          [.constant load j, .simple .vreturn]⟩ := by
    refine Code.assemble_eq_ok_iff.2 ⟨hend, Code.placedFrom_self ?_, hcode, rfl⟩
    simp [Instruction.targets]
  rw [instructions, bind_run hmap, bind_run (ofExcept_eq_ok.2 ⟨hassemble _, rfl⟩)]
  exact ⟨_, rfl⟩

end Run

/-! ## A load that is widened -/

/-- A class whose only method loads its only number. -/
def withLoad : Bytes :=
  [0xCA, 0xFE, 0xBA, 0xBE, 0, 0, 0, 49, 0, 7, 3, 0, 0, 0, 7, 1, 0, 1, 0x41, 7, 0, 2, 1, 0, 1, 0x6D,
    1, 0, 3, 0x28, 0x29, 0x56, 1, 0, 4, 0x43, 0x6F, 0x64, 0x65, 0, 0x21, 0, 3, 0, 0, 0, 0, 0, 0, 0,
    1, 0, 9, 0, 4, 0, 5, 0, 1, 0, 6, 0, 0, 0, 15, 0, 1, 0, 0, 0, 0, 0, 3, 0x12, 1, 0xB1, 0, 0, 0, 0,
    0, 0]

/-- Its method, with the constant loaded by `load`. -/
def loading (name descriptor code : UInt16) (load : Instruction) : Member :=
  ⟨⟨9⟩, name, descriptor, [⟨code, .code ⟨1, 0, [load, .simple .vreturn], [], []⟩⟩]⟩

def loadClass : ClassFile :=
  ⟨0, 49, ⟨#[.integer 7, .utf8 "A", .classRef 2, .utf8 "m", .utf8 "()V", .utf8 "Code"]⟩, ⟨0x21⟩, 3,
    0, [], [], [loading 4 5 6 (.constant .ldc 1)], []⟩

theorem decode_load :
    Instruction.decode loadClass.pool [0x12, 1, 0xB1] =
      .ok [.constant .ldc 1, .simple .vreturn] := by
  refine Code.decode_eq_ok_iff.2 ⟨Code.SpellsFrom.of_encode ?_ ?_ (by cbv), ?_⟩
  · simp only [List.forall_mem_cons]
    refine ⟨⟨.inl rfl, ?_⟩, ⟨rfl, ?_⟩, by simp⟩
    · rintro _ _ ⟨⟩ ⟨⟩
      exact ⟨.integer 7, rfl, rfl⟩
    · rintro _ _ ⟨⟩
  · simp [Instruction.InReach, Instruction.targets]
  · simp [Code.TargetsIn, Instruction.targets]

theorem spells_loading (depth : Nat) :
    (loading 4 5 6 (.constant .ldc 1)).Spells loadClass.pool (depth + 1) [[0x12, 1, 0xB1]]
      [0, 9, 0, 4, 0, 5, 0, 1, 0, 6, 0, 0, 0, 15, 0, 1, 0, 0, 0, 0, 0, 3, 0x12, 1, 0xB1, 0, 0, 0,
        0] := by
  have hbody : CodeBody.SpellsWith loadClass.pool (Attribute.Spells loadClass.pool depth)
      ⟨1, 0, [.constant .ldc 1, .simple .vreturn], [], []⟩ [[0x12, 1, 0xB1]]
      [0, 1, 0, 0, 0, 0, 0, 3, 0x12, 1, 0xB1, 0, 0, 0, 0] :=
    .plain (by decide) decode_load 1 0
  have hattribute : Attribute.Spells loadClass.pool (depth + 1)
      ⟨6, .code ⟨1, 0, [.constant .ldc 1, .simple .vreturn], [], []⟩⟩ [[0x12, 1, 0xB1]]
      [0, 6, 0, 0, 0, 15, 0, 1, 0, 0, 0, 0, 0, 3, 0x12, 1, 0xB1, 0, 0, 0, 0] :=
    ⟨"Code", _, by cbv, by decide, ⟨rfl, hbody⟩, rfl⟩
  exact ⟨_, .singleton hattribute, rfl⟩

theorem read_withLoad : ClassFile.read withLoad = .ok loadClass := by
  have hreadable : loadClass.pool.IsReadable :=
    ⟨by decide, loadClass.pool.slots.toList, rfl, by simp [loadClass, Constant.IsReadable]⟩
  have hencode : loadClass.pool.encode = .ok [0, 7, 3, 0, 0, 0, 7, 1, 0, 1, 0x41, 7, 0, 2, 1, 0, 1,
      0x6D, 1, 0, 3, 0x28, 0x29, 0x56, 1, 0, 4, 0x43, 0x6F, 0x64, 0x65] := by
    rfl
  have hvalid : loadClass.IsValid :=
    { minMajor_le := by decide
      le_maxMajor := by decide
      pool := by cbv
      thisClass := ⟨"A", by cbv⟩
      superClass := fun h => absurd rfl h
      bootstrap := by cbv }
  exact ClassFile.read_of_method hvalid hreadable hencode rfl rfl rfl rfl (spells_loading 0) rfl

/-- Names of many different interfaces. -/
def manyNames : List String :=
  (List.range 256).map fun n => String.ofList (List.replicate (n + 1) 'I')

theorem length_encode_name (n : Nat) :
    (Text.encode (String.ofList (List.replicate n 'I'))).length = n := by
  have hone : ((Text.charUnits 'I').flatMap Text.encodeUnit).length = 1 := by decide
  rw [Text.encode, Text.encodeUnits, Text.units, String.toList_ofList]
  induction n with
  | zero => rfl
  | succ n ih =>
    rw [List.replicate_succ, List.flatMap_cons, List.flatMap_append, List.length_append, ih, hone,
      Nat.add_comm]

theorem nodup_manyNames : manyNames.Nodup := by
  refine List.pairwise_map.2 (List.nodup_range.imp fun hne h => hne ?_)
  have hlist := congrArg (fun s => s.toList.length) h
  simpa using hlist

theorem length_encode_lt {name : String} (h : name ∈ manyNames) :
    (Text.encode name).length < 0x10000 := by
  obtain ⟨n, hn, rfl⟩ := List.mem_map.1 h
  have hlt := List.mem_range.1 hn
  rw [length_encode_name]
  omega

/-- The draft of the class, with other interfaces. -/
def loadDraft (interfaces : List String) : Draft :=
  { base := some loadClass, thisClass := "A", major := 49, minor := 0, access := ⟨0x21⟩,
    superClass := none, interfaces, fields := [],
    methods := [.kept (loading 4 5 6 (.constant .ldc 1)) ⟨"m", "()V"⟩ none none], failure := none }

theorem ofClass_loadClass : ofClass loadClass = .ok (loadDraft []) := by
  cbv

/-- The method is copied with the load that its constant needs. -/
theorem copyMember_loading {g g1 g2 g3 g4 : GrowingPool} {name descriptor code j : UInt16}
    (h1 : Grow.text "m" g = .ok name g1) (h2 : Grow.text "()V" g1 = .ok descriptor g2)
    (h3 : Grow.text "Code" g2 = .ok code g3) (h4 : Grow.integer 7 g3 = .ok j g4) {load : Opcode}
    (hload : Opcode.ldc.widened j = load) {bytes : Bytes}
    (hbytes : Code.encodeFrom 0 [.constant load j, .simple .vreturn] = .ok bytes)
    (hend : Code.endFrom 0 [.constant load j, .simple .vreturn] < 0x10000) (access : Access) :
    copyMember (importSource loadClass) (loading 4 5 6 (.constant .ldc 1)) access ⟨g, .off⟩ =
      .ok { loading name descriptor code (.constant load j) with access } ⟨g4, .off⟩ := by
  have run1 : index (importSource loadClass) 4 ⟨g, .off⟩ = .ok name ⟨g1, .off⟩ := index_text rfl h1
  have run2 : index (importSource loadClass) 5 ⟨g1, .off⟩ = .ok descriptor ⟨g2, .off⟩ :=
    index_text rfl h2
  have run3 : index (importSource loadClass) 6 ⟨g2, .off⟩ = .ok code ⟨g3, .off⟩ := index_text rfl h3
  have run4 : index (importSource loadClass) 1 ⟨g3, .off⟩ = .ok j ⟨g4, .off⟩ :=
    grow_eq_ok.2 ⟨g4, rfl, (importEntry_integer rfl g3).trans h4⟩
  obtain ⟨m, run5⟩ := instructions_load hload hbytes hend run4
  have hattribute : attribute? (importSource loadClass) none
      ⟨6, .code ⟨1, 0, [.constant .ldc 1, .simple .vreturn], [], []⟩⟩ ⟨g2, .off⟩ =
      .ok (some ⟨code, .code ⟨1, 0, [.constant load j, .simple .vreturn], [], []⟩⟩)
        ⟨g4, .off⟩ := by
    have hkept : ¬Attribute.IsLeftOut
        ⟨6, .code ⟨1, 0, [.constant .ldc 1, .simple .vreturn], [], []⟩⟩ := by
      rintro (⟨_, ⟨⟩⟩ | ⟨_, ⟨⟩⟩)
    rw [attribute?_eq _ _ hkept, bind_run run3, payload, codeBody_eq, bind_assoc, bind_assoc,
      bind_run run5]
    rfl
  rw [copyMember, attributes_eq]
  show (index (importSource loadClass) 4 >>= _ : Build Member) _ = _
  rw [bind_run run1]
  show (index (importSource loadClass) 5 >>= _ : Build Member) _ = _
  rw [bind_run run2]
  show ((List.filterMapM (attribute? (importSource loadClass) none) [_]) >>= _ : Build Member) _ = _
  rw [List.filterMapM_cons, bind_assoc, bind_run hattribute]
  rfl

theorem copyMember_load {g : GrowingPool} (hg : g.Inv (· ≠ .node (.integer 7) []))
    (hsize : 255 ≤ g.pool.size) (hfit : g.pool.size + 4 < 0xFFFF) :
    ∃ name descriptor code i g', copyMember (importSource loadClass)
      (loading 4 5 6 (.constant .ldc 1)) ⟨9⟩ ⟨g, .off⟩ =
        .ok (loading name descriptor code (.constant .ldcW i)) ⟨g', .off⟩ ∧
        g'.pool.size ≤ g.pool.size + 4 := by
  obtain ⟨name, g1, h1, grows1, hsize1⟩ := text_run hg (s := "m") nofun (by decide)
    (by omega)
  obtain ⟨descriptor, g2, h2, grows2, hsize2⟩ := text_run grows1.inv (s := "()V") nofun
    (by decide) (by omega)
  obtain ⟨code, g3, h3, grows3, hsize3⟩ := text_run grows2.inv (s := "Code") nofun
    (by decide) (by omega)
  obtain ⟨g4, h4, hsize4⟩ := integer_run grows3.inv (by omega)
  have hle : g.pool.size ≤ g3.pool.size := by
    have hprefix := ((grows1.trans grows2).trans grows3).le.1.length_le
    simpa [GrowingPool.source, Pool.size] using hprefix
  have hwide : Opcode.ldc.widened g3.next = .ldcW := by
    rw [Opcode.widened, if_pos]
    refine ⟨rfl, ?_⟩
    rw [GrowingPool.next, toNat_unit (by omega)]
    omega
  have hend : 4 < 0x10000 := by decide
  have hrun := copyMember_loading h1 h2 h3 h4 hwide rfl hend ⟨9⟩
  exact ⟨name, descriptor, code, g3.next, g4, hrun, by omega⟩

theorem build_loadDraft :
    ∃ r name descriptor code i, (loadDraft manyNames).build = .ok r ∧
      r.methods = [loading name descriptor code (.constant .ldcW i)] := by
  have hlength : manyNames.length = 256 := by simp [manyNames]
  obtain ⟨thisClass, g1, h1, grows1, -, hsize1⟩ :=
    classRef_run (P := (· ≠ .node (.integer 7) [])) GrowingPool.inv_empty "A" nofun nofun
      (by decide) (by decide)
  have hsize1 : g1.pool.size ≤ 2 := hsize1
  obtain ⟨interfaces, g2, h2, grows2, hinterfaces, hsize2⟩ :=
    classRefs_run (fun _ => nofun) (fun _ => nofun) (fun _ => length_encode_lt) grows1.inv
      (by omega)
  have hsize : 256 ≤ g2.pool.size := hlength ▸ length_le_size nodup_manyNames hinterfaces
  obtain ⟨name, descriptor, code, i, g3, h3, hsize3⟩ :=
    copyMember_load grows2.inv (Nat.le_of_succ_le hsize) (by omega)
  have hmethods : [MemberDraft.kept (loading 4 5 6 (.constant .ldc 1)) ⟨"m", "()V"⟩ none none].mapM
      (buildMethod (importSource loadClass)) ⟨g2, .off⟩ =
        .ok [loading name descriptor code (.constant .ldcW i)] ⟨g3, .off⟩ := by
    rw [List.mapM_cons]
    exact bind_eq_ok.2 ⟨_, _, h3, rfl⟩
  obtain ⟨tail, b, h4⟩ := buildBootstrap_run (g := g3) (by omega)
  have hbuild := build_of_runs (d := loadDraft manyNames) ⟨rfl, rfl, rfl⟩ h1 h2 hmethods rfl h4
  exact ⟨_, name, descriptor, code, i, hbuild, rfl⟩

/-- A load whose constant comes to stand behind many others is not the same instruction any more,
though the method that holds it is only copied. -/
theorem build_widens_load :
    ∃ r name descriptor code i, ClassFile.read withLoad = .ok loadClass ∧
      ofClass loadClass = .ok (loadDraft []) ∧
      ((loadDraft []).applyAll [.interfaces manyNames]).build = .ok r ∧
      ((loadDraft []).applyAll [.interfaces manyNames]).methods =
        [.kept (loading 4 5 6 (.constant .ldc 1)) ⟨"m", "()V"⟩ none none] ∧
      r.methods = [loading name descriptor code (.constant .ldcW i)] := by
  obtain ⟨r, name, descriptor, code, i, hr, hm⟩ := build_loadDraft
  exact ⟨r, name, descriptor, code, i, read_withLoad, ofClass_loadClass, hr, rfl, hm⟩

theorem build_copies_load :
    ∃ r, ClassFile.read withLoad = .ok loadClass ∧ ofClass loadClass = .ok (loadDraft []) ∧
      ((loadDraft []).applyAll [.interfaces manyNames]).build = .ok r ∧
      ((loadDraft []).applyAll [.interfaces manyNames]).Follows loadClass [.interfaces manyNames] ∧
      List.Forall₂ (CopiedInto loadClass r)
        ((loadDraft []).applyAll [.interfaces manyNames]).fields r.fields ∧
      List.Forall₂ (CopiedInto loadClass r)
        ((loadDraft []).applyAll [.interfaces manyNames]).methods r.methods ∧
      CopiedAttributes loadClass r := by
  obtain ⟨r, -, -, -, -, hr, -⟩ := build_loadDraft
  exact ⟨r, read_withLoad, ofClass_loadClass, hr, build_copies read_withLoad ofClass_loadClass hr⟩

end JvmClass.Draft
