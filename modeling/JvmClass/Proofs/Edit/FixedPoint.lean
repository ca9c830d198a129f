import JvmClass.Proofs.Edit.Copies
import JvmClass.Proofs.Edit.Flags
import JvmClass.Proofs.Relocation.ReadBack

/-!
# Building what was built

A class that was built from another with nothing new but flags is written, read and built as the
same bytes again, whether the script runs again or not. What is read back is the class with its
frames as they are written; a draft of it asks for the same entries in the same order, and the
script finds the members under the same keys.
-/

namespace JvmClass.Draft

theorem importSource_promote (c : ClassFile) : importSource c.promote = importSource c := by
  unfold importSource ClassFile.bootstrapMethods
  rw [ClassFile.promote, bootstrapMethods?_promote]

/-! ## Members -/

section Members

variable {c r : ClassFile} {ms ms' : List Member} {ks ks' : List MemberDraft}

theorem copied_of_reflags {S G : ImportSource} (hx : List.Forall₂ (MemberDraft.Reflags c) ms ks)
    (h : List.Forall₂ (MemberDraft.Copied S G) ks ms') :
    List.Forall₂ (Member.Copied S G) ms ms' := by
  refine (forall₂_comp hx h).imp ?_
  rintro m m' ⟨_, ⟨key, access, -, -, rfl⟩, hm⟩
  exact (hm m key access rfl).2

theorem isCopy_of_reflags (hx : List.Forall₂ (MemberDraft.Reflags c) ms ks) :
    ∀ k ∈ ks, k.IsCopy := by
  intro k hk
  obtain ⟨m, -, key, access, -, -, rfl⟩ := exists_of_forall₂ hx k hk
  exact ⟨m, key, access, rfl⟩

/-- A copied member keeps its key. -/
theorem exists_keep (h : List.Forall₂ (Member.Copied (importSource c) (importSource r)) ms ms')
    (hks : ms.mapM (keep c) = .ok ks) :
    ∃ ks', (ms'.map Member.promote).mapM (keep r.promote) = .ok ks' ∧
      List.Forall₂ MemberDraft.Alongside ks ks' := by
  induction h generalizing ks with
  | nil =>
    cases hks
    exact ⟨[], rfl, .nil⟩
  | @cons m m' ms ms' hm _ ih =>
    obtain ⟨k, rest, hk, hrest, rfl⟩ := mapM_cons_eq_ok.1 hks
    obtain ⟨ks', hks', halong⟩ := ih hrest
    obtain ⟨key, hn, hd, rfl⟩ := keep_eq_ok.1 hk
    have hn' := Pool.text_eq_ok.2 (hm.name.text (Pool.text_eq_ok.1 hn))
    have hd' := Pool.text_eq_ok.2 (hm.descriptor.text (Pool.text_eq_ok.1 hd))
    have hk' : keep r.promote m'.promote = .ok (.kept m'.promote key none none) :=
      keep_eq_ok.2 ⟨key, hn', hd', rfl⟩
    exact ⟨_ :: ks', mapM_cons_eq_ok.2 ⟨_, ks', hk', hks', rfl⟩,
      .cons ⟨m, m'.promote, key, none, rfl, rfl⟩ halong⟩

/-- The flags a member was built with. -/
def KeepsFlags (m : Member) (k : MemberDraft) : Prop :=
  ∀ base key access, k = .kept base key access none → access.getD m.access = m.access

theorem keepsFlags_of_alongside {S G : ImportSource}
    (h : List.Forall₂ (MemberDraft.Copied S G) ks ms)
    (halong : List.Forall₂ MemberDraft.Alongside ks ks') : List.Forall₂ KeepsFlags ms ks' := by
  refine (forall₂_comp (R := flip (MemberDraft.Copied S G)) h.flip halong).imp ?_
  rintro m' _ ⟨_, hm, m, base, key, access, rfl, rfl⟩ _ _ _ ⟨⟩
  obtain ⟨haccess, -⟩ := hm m key access rfl
  cases access with
  | none => rfl
  | some a => exact haccess.symm

theorem keepsFlags_of_keep (h : (ms.map Member.promote).mapM (keep r) = .ok ks) :
    List.Forall₂ KeepsFlags ms ks := by
  refine (List.forall₂_map_left_iff.1 (mapM_eq_ok_iff.1 h)).imp fun m k hk => ?_
  obtain ⟨key, -, -, rfl⟩ := keep_eq_ok.1 hk
  rintro _ _ _ ⟨⟩
  rfl

theorem retakes_of_reflags (h : List.Forall₂ (MemberDraft.Reflags c) (ms.map Member.promote) ks)
    (hflags : List.Forall₂ KeepsFlags ms ks) : List.Forall₂ MemberDraft.Retakes ms ks := by
  refine List.Forall₂.mp (fun m k hm hk => ?_) (List.forall₂_map_left_iff.1 h) hflags
  obtain ⟨key, access, -, -, rfl⟩ := hm
  exact ⟨key, access, rfl, hk _ key access rfl⟩

end Members

/-! ## Headers -/

theorem Reflags.baseSource {c : ClassFile} {x : Draft} (h : x.Reflags c) :
    x.baseSource = importSource c := by
  rw [Draft.baseSource, h.base]
  rfl

theorem Reflags.baseAttributes {c : ClassFile} {x : Draft} (h : x.Reflags c) :
    x.baseAttributes = c.attributes := by
  rw [Draft.baseAttributes, h.base]
  rfl

section Names

variable {r : ClassFile} {x : Draft} {g g' : GrowingPool} (h : x.Assembled (importSource r) g r g')

include h

theorem Assembled.className_eq : r.className = .ok x.thisClass := h.thisClass.className

theorem Assembled.superName?_eq : r.superName? = .ok x.superClass := by
  have hsuper := h.superClass
  unfold ClassFile.superName?
  cases hname : x.superClass with
  | none =>
    rw [hname] at hsuper
    exact if_pos hsuper
  | some name =>
    rw [hname] at hsuper
    have hne : r.superClass ≠ 0 := by
      intro e
      rw [e] at hsuper
      obtain ⟨depth, ht⟩ := hsuper
      cases depth <;> cases ht
    have hclass : r.pool.className r.superClass = .ok name := hsuper.className
    rw [if_neg hne, hclass]
    rfl

theorem Assembled.interfaceNames_eq : r.interfaceNames = .ok x.interfaces :=
  mapM_eq_ok_iff.2 (List.Forall₂.flip (h.interfaces.imp fun _ _ hi => hi.className))

end Names

/-! ## Reading back -/

section Classes

variable {c r : ClassFile} {x : Draft} {g : GrowingPool} (hx : x.Reflags c)
  (grows : GrowingPool.empty.Grows Symbol.IsValid g) (hg : importSource r = g.source)
  (h : x.Assembled (importSource r) .empty r g)

section Copies

include hx h

theorem Assembled.copied_fields :
    List.Forall₂ (Member.Copied (importSource c) (importSource r)) c.fields r.fields :=
  copied_of_reflags hx.fields (hx.baseSource ▸ h.fields)

theorem Assembled.copied_methods :
    List.Forall₂ (Member.Copied (importSource c) (importSource r)) c.methods r.methods :=
  copied_of_reflags hx.methods (hx.baseSource ▸ h.methods)

end Copies

include grows hg h in
theorem isValid_promote (hmin : ClassFile.minMajor ≤ x.major)
    (hmax : x.major ≤ ClassFile.maxMajor) : r.promote.IsValid := by
  have hmajor : r.promote.major = x.major := h.major
  have hpool : r.pool = g.pool := h.pool
  have hmethods : r.promote.bootstrapMethods = g.bootstrap.toList :=
    congrArg (fun S => S.bootstrap.toList) ((importSource_promote r).trans hg)
  refine ⟨hmajor ▸ hmin, hmajor ▸ hmax, ?_, ⟨_, h.thisClass.className⟩, fun hne => ?_, ?_⟩
  · show r.pool.validate = _
    rw [hpool]
    exact grows.inv.validate
  · have hsuper := h.superClass
    cases hname : x.superClass with
    | none =>
      rw [hname] at hsuper
      exact absurd hsuper hne
    | some name =>
      rw [hname] at hsuper
      exact ⟨name, hsuper.className⟩
  · rw [hmethods]
    show r.pool.validateBootstrap _ = _
    rw [hpool]
    exact grows.validateBootstrap

theorem readsBack_tail {r : ClassFile} {g : GrowingPool} {tail : List Attribute}
    (htail : BootstrapTail (importSource r) g tail) (depth : Nat) : ∀ a ∈ tail,
      ReadsBack (Attribute.Spells r.pool (depth + 1)) Attribute.encode a := by
  unfold BootstrapTail at htail
  split at htail
  · subst htail
    simp
  · obtain ⟨name, hname, rfl⟩ := htail
    rw [List.forall_mem_singleton]
    have htable : Attribute.IsTable (importSource r) ⟨name, .bootstrapMethods g.bootstrap.toList⟩ :=
      ⟨"BootstrapMethods", hname, rfl, trivial⟩
    exact htable.readsBack depth

include h in
theorem Assembled.readsBack_attributes {depth : Nat}
    (hs : ∀ a ∈ x.baseAttributes, ∃ codes used,
      Attribute.Spells x.baseSource.pool (depth + 1) a codes used) :
    ∀ a ∈ promoteAttributes r.attributes,
      ReadsBack (Attribute.Spells r.pool (depth + 1)) Attribute.encode a := by
  obtain ⟨copies, tail, hcopies, htail, hsum⟩ := h.attributes
  obtain ⟨-, hpromote⟩ := filterMapM_tail (H := importSource r) htail
  rw [hsum, promoteAttributes_append, hpromote, List.forall_mem_append]
  exact ⟨(Attribute.copiesReadBack _ _ _).all hcopies hs, readsBack_tail htail depth⟩

include hx h grows hg in
/-- What is written for the class is read as the class with its frames as they are written. -/
theorem read_of_assembled {bytes out : Bytes} (hread : ClassFile.read bytes = .ok c)
    (he : r.encode = .ok out) : ClassFile.read out = .ok r.promote := by
  obtain ⟨texts, codes, hvalid, pool, body, -, hbody, rfl⟩ := ClassFile.read_eq_ok_iff.1 hread
  obtain ⟨depth, hbody⟩ : ∃ depth, c.SpellsBody (depth + 1) codes body :=
    ⟨body.length, hbody.of_length_le (Nat.le_succ _)⟩
  obtain ⟨_, _, _, _, _, _, -, hf, hm, ha, -, -⟩ := hbody
  have members {ms ms' : List Member} {codes : List Bytes} {used : Bytes}
      (hs : SpellsTable (Member.Spells c.pool (depth + 1)) ms codes used)
      (hc : List.Forall₂ (Member.Copied (importSource c) (importSource r)) ms ms') :
      ∀ m ∈ ms'.map Member.promote,
        ReadsBack (Member.Spells r.promote.pool (depth + 1)) Member.encode m := by
    intro m hm
    obtain ⟨m', hm', rfl⟩ := List.mem_map.1 hm
    obtain ⟨m, hm, hcopied⟩ := exists_of_forall₂ hc m' hm'
    obtain ⟨ps, u, hspells⟩ := hs.exists_of_mem m hm
    exact hcopied.readsBack hspells
  have hattributes : ∀ a ∈ promoteAttributes r.attributes,
      ReadsBack (Attribute.Spells r.promote.pool (depth + 1)) Attribute.encode a := by
    refine h.readsBack_attributes ?_
    rw [hx.baseSource, hx.baseAttributes]
    exact ha.exists_of_mem
  have hpool : r.pool.IsReadable := h.pool ▸ grows.inv.readable
  have hversion : r.promote.IsValid :=
    isValid_promote grows hg h (hx.major ▸ hvalid.minMajor_le) (hx.major ▸ hvalid.le_maxMajor)
  exact ClassFile.read_of_encode (members hf (h.copied_fields hx))
    (members hm (h.copied_methods hx)) hattributes hversion hpool (r.encode_promote.trans he)

/-! ## Building again -/

include hx h in
/-- A draft of the class finds its members under the keys of the old ones. -/
theorem exists_ofClass {d : Draft} (hd : ofClass c = .ok d) :
    ∃ d', ofClass r.promote = .ok d' ∧ d.Alongside d' ∧
      List.Forall₂ KeepsFlags r.fields d'.fields ∧
      List.Forall₂ KeepsFlags r.methods d'.methods := by
  obtain ⟨hf, hm, -, -, -, -, -, -, -, hfailure⟩ := ofClass_eq_ok.1 hd
  obtain ⟨fields, hfields, halongf⟩ := exists_keep (h.copied_fields hx) hf
  obtain ⟨methods, hmethods, halongm⟩ := exists_keep (h.copied_methods hx) hm
  have hof : ofClass r.promote = .ok ⟨some r.promote, x.thisClass, r.major, r.minor, r.access,
      x.superClass, x.interfaces, fields, methods, none⟩ :=
    ofClass_eq_ok.2 ⟨hfields, hmethods, h.className_eq, h.superName?_eq, h.interfaceNames_eq, rfl,
      rfl, rfl, rfl, rfl⟩
  refine ⟨_, hof, ⟨halongf, halongm, hfailure⟩, ?_, ?_⟩
  · exact keepsFlags_of_keep hfields
  · exact keepsFlags_of_keep hmethods

include hx h in
/-- A draft of the class with the flags it has is built as the class. -/
theorem build_of_reflags {y : Draft} (hy : y.Reflags r.promote) (hfailure : y.failure = none)
    (haccess : y.access = r.access) (hfields : List.Forall₂ KeepsFlags r.fields y.fields)
    (hmethods : List.Forall₂ KeepsFlags r.methods y.methods) : y.build = .ok r.promote := by
  have hthis := hy.thisClass.symm.trans h.className_eq
  have hsuper := hy.superClass.symm.trans h.superName?_eq
  have hinterfaces := hy.interfaces.symm.trans h.interfaceNames_eq
  have hretakes : y.Retakes (importSource r) x r :=
    ⟨Except.ok.inj hthis, Except.ok.inj hsuper, Except.ok.inj hinterfaces,
      hy.baseSource.trans (importSource_promote r), retakes_of_reflags hy.fields hfields,
      retakes_of_reflags hy.methods hmethods, hy.baseAttributes⟩
  have hagain := h.again (isCopy_of_reflags hx.fields) (isCopy_of_reflags hx.methods) y hretakes
  rw [hy.minor, hy.major, haccess] at hagain
  exact build_eq_ok.2 ⟨hfailure, _, hagain⟩

end Classes

/-- Building is a fixed point of itself: what a script that changes flags only has made of a class
is read, and built as the same bytes again, with or without the script. -/
theorem build_again {bytes out : Bytes} {c : ClassFile} {d : Draft} {edits : List Edit}
    (hread : ClassFile.read bytes = .ok c) (hd : ofClass c = .ok d)
    (hedits : ∀ e ∈ edits, e.isFlag = true)
    (hbuild : ((d.applyAll edits).build >>= ClassFile.encode) = .ok out) :
    ∃ c' d', ClassFile.read out = .ok c' ∧ ofClass c' = .ok d' ∧
      (d'.build >>= ClassFile.encode) = .ok out ∧
      ((d'.applyAll edits).build >>= ClassFile.encode) = .ok out := by
  obtain ⟨r, hr, he⟩ := exceptBind_eq_ok.1 hbuild
  have hx := (reflags_ofClass hd).applyAll hedits
  obtain ⟨g, grows, hg, h⟩ := build_spec Symbol.named_isValid
    (hx.baseSource.symm ▸ supplies_of_read hread) hr
  obtain ⟨hfailure, -⟩ := build_eq_ok.1 hr
  obtain ⟨d', hd', halong, hfields, hmethods⟩ := exists_ofClass hx h hd
  obtain ⟨-, -, -, -, -, -, -, -, haccess, hfresh⟩ := ofClass_eq_ok.1 hd'
  have hd'x := reflags_ofClass hd'
  have hedited := halong.applyAll hedits
  have haccess' : (d'.applyAll edits).access = r.access := by
    rw [access_applyAll, haccess]
    show accessAfter r.access edits = r.access
    rw [h.access, access_applyAll, accessAfter_accessAfter]
  have once : d'.build = .ok r.promote :=
    build_of_reflags hx h hd'x hfresh haccess hfields hmethods
  have twice : (d'.applyAll edits).build = .ok r.promote :=
    build_of_reflags hx h (hd'x.applyAll hedits) (hedited.failure ▸ hfailure) haccess'
      (keepsFlags_of_alongside h.fields hedited.fields)
      (keepsFlags_of_alongside h.methods hedited.methods)
  have hencode : r.promote.encode = .ok out := r.encode_promote.trans he
  exact ⟨r.promote, d', read_of_assembled hx grows hg h hread he, hd',
    exceptBind_eq_ok.2 ⟨_, once, hencode⟩, exceptBind_eq_ok.2 ⟨_, twice, hencode⟩⟩

/-! ## A class that is built again -/

/-- The entries of a growing pool, none of which takes two slots or is computed. -/
structure Lists (g : GrowingPool) (cs : List Constant) : Prop where
  inv : g.Inv Symbol.IsValid
  slots : g.pool.slots.toList = cs
  bootstrap : g.bootstrap = #[]

namespace Lists

variable {g : GrowingPool} {cs : List Constant} (h : Lists g cs)

include h

theorem add {c : Constant} {key : Bytes} (hr : c.IsReadable) (hkey : c.encode = .ok key)
    (hslots : c.slots = 1) (hnew : c ∉ cs) (hfit : cs.length + 1 < 0xFFFF) :
    ∃ g', Grow.add c g = .ok (UInt16.ofNat (cs.length + 1)) g' ∧
      g'.pool.slots.toList = cs ++ [c] ∧ g'.bootstrap = #[] := by
  have hsize : g.pool.size = cs.length := by
    rw [← h.slots, Array.length_toList]
    rfl
  have hget : ∀ i, g.pool.get? i ≠ some c := by
    intro i hi
    have hm := List.mem_of_getElem? (Pool.get?_eq_some_iff.1 hi).2
    exact hnew (h.slots ▸ hm)
  have hrun := Grow.add_new h.inv hr hkey hget (by omega)
  rw [GrowingPool.next, hsize] at hrun
  refine ⟨_, hrun, ?_, h.bootstrap⟩
  show (g.pool.append c).slots.toList = _
  rw [Pool.slots_append, h.slots, Pool.spread, List.flatMap_singleton, if_neg (by omega)]

theorem leaf {c : Constant} {key : Bytes} (hr : c.IsReadable) (hb : c.bootstrap? = none)
    (hrefs : c.references = []) (hkey : c.encode = .ok key) (hslots : c.slots = 1) (hnew : c ∉ cs)
    (hfit : cs.length + 1 < 0xFFFF) :
    ∃ g', Grow.add c g = .ok (UInt16.ofNat (cs.length + 1)) g' ∧ Lists g' (cs ++ [c]) := by
  obtain ⟨g', hrun, hs, hbootstrap⟩ := h.add hr hkey hslots hnew hfit
  have hp := Symbol.named_isValid.leaf c hr hb hrefs
  exact ⟨g', hrun, (Grow.enters_leaf hr hb hrefs hp g _ g' h.inv hrun).1.inv, hs, hbootstrap⟩

theorem text {s : String} (hs : (Text.encode s).length < 0x10000) (hnew : .utf8 s ∉ cs)
    (hfit : cs.length + 1 < 0xFFFF) :
    ∃ g', Grow.text s g = .ok (UInt16.ofNat (cs.length + 1)) g' ∧ Lists g' (cs ++ [.utf8 s]) :=
  h.leaf trivial rfl rfl (if_pos hs) rfl hnew hfit

/-- A text that is there is found. -/
theorem held {s : String} {k : Nat} (hs : (Text.encode s).length < 0x10000)
    (hk : cs[k]? = some (.utf8 s)) (hfit : k + 1 < 0x10000) :
    Grow.text s g = .ok (UInt16.ofNat (k + 1)) g := by
  have hkey : (Constant.utf8 s).encode = .ok _ := if_pos hs
  have hget : g.pool.get? (UInt16.ofNat (k + 1)) = some (.utf8 s) := by
    rw [Pool.get?_eq_some_iff, toNat_unit hfit, h.slots]
    refine ⟨fun hzero => ?_, hk⟩
    have hnat := toNat_unit hfit
    rw [hzero] at hnat
    cases hnat
  exact Grow.add_eq_ok.2 ⟨_, hkey, .inl ⟨(h.inv.indexed _ _).2 ⟨_, hget, trivial, hkey⟩, rfl⟩⟩

theorem pool_eq : g.pool = ⟨cs.toArray⟩ := by
  rw [← h.slots]

theorem buildBootstrap_eq : buildBootstrap ⟨g, .off⟩ = .ok [] ⟨g, .off⟩ := by
  show (if g.bootstrap.isEmpty then _ else _ : Build (List Attribute)) _ = _
  rw [h.bootstrap]
  rfl

end Lists

/-- The entries for a class and for a method, up to its code. -/
theorem exists_lists_method :
    ∃ g2 g3 g4 g5, Grow.classRef "A" .empty = .ok 2 g2 ∧ Grow.text "m" g2 = .ok 3 g3 ∧
      Grow.text "()V" g3 = .ok 4 g4 ∧ Grow.text "Code" g4 = .ok 5 g5 ∧
      Lists g5 [.utf8 "A", .classRef 1, .utf8 "m", .utf8 "()V", .utf8 "Code"] := by
  have hempty : Lists .empty [] := ⟨GrowingPool.inv_empty, rfl, rfl⟩
  obtain ⟨g1, h1, l1⟩ := hempty.text (s := "A") (by decide) (by simp) (by decide)
  obtain ⟨g2, h2, s2, b2⟩ := l1.add (c := .classRef 1) trivial rfl rfl (by simp) (by decide)
  have hclass : Grow.classRef "A" .empty = .ok 2 g2 := by
    rw [Grow.classRef, bind_run h1]
    exact h2
  have l2 : Lists g2 [.utf8 "A", .classRef 1] :=
    ⟨(Grow.enters_class Symbol.named_isValid "A" _ _ _ GrowingPool.inv_empty hclass).1.inv, s2, b2⟩
  obtain ⟨g3, h3, l3⟩ := l2.text (s := "m") (by decide) (by simp) (by decide)
  obtain ⟨g4, h4, l4⟩ := l3.text (s := "()V") (by decide) (by simp) (by decide)
  obtain ⟨g5, h5, l5⟩ := l4.text (s := "Code") (by decide) (by simp) (by decide)
  exact ⟨g2, g3, g4, g5, hclass, h3, h4, h5, l5⟩

/-- Flags for the class and for its method. -/
def flagEdits : List Edit := [.access ⟨0x31⟩, .methodAccess ⟨"m", "()V"⟩ ⟨0x19⟩]

/-- What they make of the class: its constant comes last. -/
def flagged : ClassFile :=
  ⟨0, 49, ⟨#[.utf8 "A", .classRef 1, .utf8 "m", .utf8 "()V", .utf8 "Code", .integer 7]⟩, ⟨0x31⟩, 2,
    0, [], [], [{ loading 3 4 5 (.constant .ldc 6) with access := ⟨0x19⟩ }], []⟩

theorem applyAll_flagEdits :
    (loadDraft []).applyAll flagEdits =
      { loadDraft [] with
        access := ⟨0x31⟩
        methods :=
          [.kept (loading 4 5 6 (.constant .ldc 1)) ⟨"m", "()V"⟩ (some ⟨0x19⟩) none] } := by
  cbv

/-- The entries for the class, and then for its method. -/
theorem exists_lists_load (flags : Option Access) :
    ∃ g g', Grow.classRef "A" .empty = .ok 2 g ∧
      buildMethod (importSource loadClass)
        (.kept (loading 4 5 6 (.constant .ldc 1)) ⟨"m", "()V"⟩ flags none) ⟨g, .off⟩ =
          .ok { loading 3 4 5 (.constant .ldc 6) with access := flags.getD ⟨9⟩ } ⟨g', .off⟩ ∧
      Lists g' flagged.pool.slots.toList := by
  obtain ⟨g2, g3, g4, g5, hclass, h3, h4, h5, l5⟩ := exists_lists_method
  obtain ⟨g6, h6, l6⟩ := l5.leaf (c := .integer 7) trivial rfl rfl rfl rfl (by simp) (by decide)
  exact ⟨g2, g6, hclass, copyMember_loading h3 h4 h5 h6 rfl rfl (by decide) (flags.getD ⟨9⟩), l6⟩

/-- The class is built alike under any flags. -/
theorem build_load (access : Access) (flags : Option Access) :
    Draft.build { loadDraft [] with
        access
        methods := [.kept (loading 4 5 6 (.constant .ldc 1)) ⟨"m", "()V"⟩ flags none] } =
      .ok { flagged with
        access
        methods := [{ loading 3 4 5 (.constant .ldc 6) with access := flags.getD ⟨9⟩ }] } := by
  obtain ⟨g, g', hclass, hmethod, hlists⟩ := exists_lists_load flags
  have hmethods : [MemberDraft.kept (loading 4 5 6 (.constant .ldc 1)) ⟨"m", "()V"⟩ flags none].mapM
      (buildMethod (importSource loadClass)) ⟨g, .off⟩ =
        .ok [{ loading 3 4 5 (.constant .ldc 6) with access := flags.getD ⟨9⟩ }] ⟨g', .off⟩ := by
    rw [List.mapM_cons]
    exact bind_eq_ok.2 ⟨_, _, hmethod, rfl⟩
  have hthis : Build.grow (.classRef "A") ⟨.empty, .off⟩ = .ok 2 ⟨g, .off⟩ :=
    grow_eq_ok.2 ⟨g, rfl, hclass⟩
  refine Eq.trans (build_of_runs ⟨rfl, rfl, rfl⟩ hthis rfl hmethods rfl
    hlists.buildBootstrap_eq) ?_
  rw [hlists.pool_eq]
  rfl

theorem build_flagged : ((loadDraft []).applyAll flagEdits).build = .ok flagged := by
  rw [applyAll_flagEdits]
  exact build_load ⟨0x31⟩ (some ⟨0x19⟩)

/-- The bytes of the class, with the flags and with the constant at its new index. -/
def withFlags : Bytes :=
  [0xCA, 0xFE, 0xBA, 0xBE, 0, 0, 0, 49, 0, 7, 1, 0, 1, 0x41, 7, 0, 1, 1, 0, 1, 0x6D, 1, 0, 3, 0x28,
    0x29, 0x56, 1, 0, 4, 0x43, 0x6F, 0x64, 0x65, 3, 0, 0, 0, 7, 0, 0x31, 0, 2, 0, 0, 0, 0, 0, 0, 0,
    1, 0, 0x19, 0, 3, 0, 4, 0, 1, 0, 5, 0, 0, 0, 15, 0, 1, 0, 0, 0, 0, 0, 3, 0x12, 6, 0xB1, 0, 0, 0,
    0, 0, 0]

theorem encode_flagged : flagged.encode = .ok withFlags := by
  have hcode : Code.reassemble [.constant .ldc 6, .simple .vreturn] =
      .ok ⟨[0x12, 6, 0xB1], _, _⟩ :=
    Code.reassemble_eq_ok (by simp [Code.TargetsIn, Instruction.targets]) (by decide) rfl
  have hmember : Member.encode { loading 3 4 5 (.constant .ldc 6) with access := ⟨0x19⟩ } =
      .ok ((withFlags.drop 51).take 29) := by
    rw [Member.encode, loading, Attribute.encodeTable, encodeAttributes, Attribute.encode,
      Payload.encode, CodeBody.encode, hcode]
    rfl
  have hpool : flagged.pool.encode = .ok ((withFlags.drop 8).take 31) := by
    rfl
  have hmethods : concatM Member.encode flagged.methods = .ok ((withFlags.drop 51).take 29) := by
    rw [flagged, concatM_cons, hmember]
    rfl
  have hbody : flagged.encodeBody = .ok (withFlags.drop 45) := by
    rw [ClassFile.encodeBody, hmethods]
    rfl
  rw [ClassFile.encode_eq, hpool, hbody]
  rfl

theorem build_again_withLoad :
    ClassFile.read withLoad = .ok loadClass ∧ ofClass loadClass = .ok (loadDraft []) ∧
      (∀ e ∈ flagEdits, e.isFlag = true) ∧
      (((loadDraft []).applyAll flagEdits).build >>= ClassFile.encode) = .ok withFlags ∧
      ∃ c' d', ClassFile.read withFlags = .ok c' ∧ ofClass c' = .ok d' ∧
        (d'.build >>= ClassFile.encode) = .ok withFlags ∧
        ((d'.applyAll flagEdits).build >>= ClassFile.encode) = .ok withFlags := by
  have hedits : ∀ e ∈ flagEdits, e.isFlag = true := by simp [flagEdits, Edit.isFlag]
  have hbuild := exceptBind_eq_ok.2 ⟨_, build_flagged, encode_flagged⟩
  exact ⟨read_withLoad, ofClass_loadClass, hedits, hbuild,
    build_again read_withLoad ofClass_loadClass hedits hbuild⟩

end JvmClass.Draft
