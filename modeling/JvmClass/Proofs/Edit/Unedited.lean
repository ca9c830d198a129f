import JvmClass.Inspect.Views
import JvmClass.Proofs.Edit.FixedPoint
import JvmClass.Proofs.Relocation.Steps
import JvmClass.Proofs.WellFormed

/-!
# Rebuilding a class without edits

A draft of a class asks for nothing but what stands in the pool of the class: the names it takes
from there are asked for by name, all else is imported, and the name of the table of bootstrap
methods is that of the table in the class. So the pool of the rebuilt class is at all times a part
of that of the class (`rebuild_embeds`): it needs no more room, and the class depends on nothing
new.
-/

namespace JvmClass

open Relocation Draft

/-! ## Requests by name -/

namespace Grow

variable {S : ImportSource} {i : UInt16}

theorem importEntry_of_text {s : String} (h : S.pool.text i = .ok s) :
    importEntry S i = text s := by
  rw [importEntry, importWithin, Pool.get_eq_ok.2 (Pool.text_eq_ok.1 h)]
  rfl

theorem importEntry_of_className {name : String} (h : S.pool.className i = .ok name) :
    importEntry S i = classRef name := by
  obtain ⟨c, hc, hname⟩ := exceptBind_eq_ok.1 h
  cases c with
  | classRef k =>
    rw [importEntry, importWithin, hc]
    show (ofExcept (S.pool.text k) >>= classRef : Grow UInt16) = _
    rw [show S.pool.text k = .ok name from hname]
    rfl
  | _ => cases hname

end Grow

theorem hasRoom_ofClass (c : ClassFile) : HasRoom (ofClass c) := by
  have hname (i : UInt16) : LooksUp (c.pool.className i) := looksUp_className i
  have hkeep (m : Member) : LooksUp (keep c m) :=
    (looksUp_text _).bind fun _ => (looksUp_text _).bind fun _ => failsAs_ok _
  have hsuper : LooksUp c.superName? := by
    refine failsAs_ite (failsAs_ok _) ?_
    rw [map_eq_pure_bind]
    exact (hname _).bind fun _ => failsAs_ok _
  refine .of_lookup ?_
  refine (failsAs_mapM hkeep _).bind fun fields => ?_
  refine (failsAs_mapM hkeep _).bind fun methods => ?_
  refine (hname _).bind fun thisClass => ?_
  refine hsuper.bind fun superClass => ?_
  exact (failsAs_mapM hname _).bind fun _ => failsAs_ok _

/-! ## Builds that fill a pool -/

/-- Whatever becomes of the build, it fills the pool from `S`, and there is room for all it asks. -/
def FillsFrom (S : ImportSource) {α : Type} (x : Build α) : Prop :=
  ∀ b : Building, GrowingPool.Filling S b.pool →
    Runs (fun b => b.pool.source) (fun b => GrowingPool.Filling S b.pool)
      (fun e => e.isFull = false) x b fun _ _ => True

section FillsFrom

variable {S : ImportSource}

theorem fillsFrom_grow {α : Type} {x : Grow α} {post : α → GrowingPool → Prop}
    (h : ∀ g, GrowingPool.Filling S g →
      Runs GrowingPool.source (GrowingPool.Filling S) (fun e => e.isFull = false) x g post) :
    FillsFrom S (Build.grow x) := by
  rintro ⟨g, log⟩ hg
  have hrun := h g hg
  cases hx : x g with
  | ok a g' =>
    obtain ⟨hI, hle, -⟩ := hrun.ok hx
    exact runs_of_ok (by rw [grow_run, hx]) hI hle trivial
  | error e g' =>
    obtain ⟨hI, hle, he⟩ := hrun.error hx
    exact runs_of_error (by rw [grow_run, hx]) hI hle he

/-- A relocation from `S` fills the pool from there. -/
theorem steps_fillsFrom (hS : S.pool.IsReadable) (hb : S.bootstrap.size ≤ 0x10000) :
    Steps S fun _ x => FillsFrom S x where
  pure _ _ hg := runs_pure hg trivial
  bind hx hf b hg := (hx b hg).bind fun a b' hg' _ _ => hf a b' hg'
  throw he _ hg := runs_throw hg he
  record _ _ hg := runs_of_ok rfl hg (le_refl _) trivial
  index i := fillsFrom_grow fun g hg => (GrowingPool.copying_filling hS hb).importEntry i g hg

end FillsFrom

/-! ## Classes -/

namespace Draft

variable {bytes : Bytes} {c : ClassFile}

/-- The bootstrap methods of a class that was read are as many as can be counted, and if there are
any, the name of their table stands in the pool. -/
theorem bootstrap_of_read (h : ClassFile.read bytes = .ok c) :
    c.bootstrapMethods.length < 0x10000 ∧ (c.bootstrapMethods ≠ [] →
      ∃ i, c.pool.text i = .ok "BootstrapMethods") := by
  obtain ⟨texts, codes, -, -, body, -, hbody, -⟩ := ClassFile.read_eq_ok_iff.1 h
  unfold ClassFile.bootstrapMethods
  cases hfound : Attribute.bootstrapMethods? c.attributes with
  | none => simp
  | some methods =>
    obtain ⟨⟨i, payload⟩, ha, hp⟩ := List.exists_of_findSome?_eq_some hfound
    cases payload with
    | bootstrapMethods methods' =>
      cases hp
      have hcontains : c.Contains ⟨i, .bootstrapMethods methods⟩ := .inl (.here ha)
      obtain ⟨depth, codes, used, hs⟩ := hcontains.spells hbody
      cases depth with
      | zero => exact hs.elim
      | succ depth =>
        obtain ⟨name, v, hname, -, ⟨hn, -, -, he⟩, -⟩ := hs
        cases hn
        exact ⟨(Table.encodeM_eq_ok.1 he).1, fun _ => ⟨i, hname⟩⟩
    | _ => cases hp

theorem fillsFrom_buildBootstrap {S : ImportSource} (steps : Steps S fun _ x => FillsFrom S x)
    (hname : S.bootstrap ≠ #[] → ∃ i, S.pool.text i = .ok "BootstrapMethods") :
    FillsFrom S buildBootstrap := by
  have hget {b : Building} (hb : GrowingPool.Filling S b.pool) :
      Runs (fun b => b.pool.source) (fun b => GrowingPool.Filling S b.pool)
        (fun e => e.isFull = false) (get : Build Building) b fun b' _ => b' = b :=
    runs_of_ok rfl hb (le_refl _) rfl
  intro b hb
  unfold buildBootstrap
  refine (hget hb).bind fun b' t ht _ hb' => ?_
  subst hb'
  split
  · exact runs_pure ht trivial
  · rename_i hempty
    -- the first bootstrap method is a copy, so there is a table to copy from
    have hsize : 0 < b'.pool.bootstrap.size :=
      Array.size_pos_iff.2 fun e => hempty (Array.isEmpty_iff.2 e)
    obtain ⟨l, m, hm, -⟩ := hb.covered.methods 0 _ (Array.getElem?_eq_getElem hsize)
    obtain ⟨i, hi⟩ := hname (by rintro e; rw [e] at hm; cases hm)
    rw [← Grow.importEntry_of_text hi]
    refine (steps.index i t ht).bind fun _ u hu _ _ => ?_
    exact (hget hu).bind fun _ w hw _ _ => runs_pure hw trivial

/-- A draft of a class asks for nothing but what stands in the pool of the class. -/
theorem fillsFrom_assembleClass (h : ClassFile.read bytes = .ok c) {d : Draft}
    (hd : ofClass c = .ok d) : FillsFrom (importSource c) d.assembleClass := by
  obtain ⟨hfields, hmethods, hthis, hsuper, hinterfaces, hbase, -⟩ := ofClass_eq_ok.1 hd
  obtain ⟨hlength, hname⟩ := bootstrap_of_read h
  obtain ⟨texts, codes, -, pool, body, hpool, -⟩ := ClassFile.read_eq_ok_iff.1 h
  have steps := steps_fillsFrom (S := importSource c) hpool.isReadable (Nat.le_of_lt hlength)
  have hclass {i : UInt16} {name : String} (hi : c.pool.className i = .ok name) :
      FillsFrom (importSource c) (Build.grow (.classRef name)) := by
    rw [← Grow.importEntry_of_className (S := importSource c) hi]
    exact steps.index i
  have hcopy (m : Member) (access : Access) :
      FillsFrom (importSource c) (copyMember (importSource c) m access) :=
    steps.bind (steps.index _) fun _ => steps.bind (steps.index _) fun _ =>
      steps.bind (steps.attributes _) fun _ => steps.pure _
  have hkept {ms : List Member} {ks : List MemberDraft} (hks : ms.mapM (keep c) = .ok ks)
      (k : MemberDraft) (hk : k ∈ ks) : ∃ m key, k = .kept m key none none := by
    obtain ⟨m, -, hm⟩ := exists_of_forall₂ (mapM_eq_ok_iff.1 hks) k hk
    obtain ⟨key, -, -, rfl⟩ := keep_eq_ok.1 hm
    exact ⟨m, key, rfl⟩
  have hsource : d.baseSource = importSource c := by
    rw [baseSource, hbase]
    rfl
  rw [assembleClass_eq, hsource]
  refine steps.bind (steps.record _) fun _ => steps.bind (hclass hthis) fun _ =>
    steps.bind ?_ fun _ => steps.bind (steps.mapM fun name hn => ?_) fun _ =>
    steps.bind (steps.mapM fun k hk => ?_) fun _ => steps.bind (steps.mapM fun k hk => ?_) fun _ =>
    steps.bind (steps.attributes _) fun _ =>
    steps.bind (fillsFrom_buildBootstrap steps fun hne => hname ?_) fun _ =>
    steps.bind ?_ fun _ => steps.pure _
  · cases hs : d.superClass with
    | none => exact steps.pure 0
    | some name =>
      rw [hs] at hsuper
      unfold ClassFile.superName? at hsuper
      split at hsuper
      · cases hsuper
      · rw [map_eq_pure_bind] at hsuper
        obtain ⟨_, hi, e⟩ := exceptBind_eq_ok.1 hsuper
        cases e
        exact hclass hi
  · obtain ⟨i, -, hi⟩ := exists_of_forall₂ (mapM_eq_ok_iff.1 hinterfaces) name hn
    exact hclass hi
  · obtain ⟨m, key, rfl⟩ := hkept hfields k hk
    exact hcopy m _
  · obtain ⟨m, key, rfl⟩ := hkept hmethods k hk
    exact steps.bind (steps.record _) fun _ => hcopy m _
  · exact fun e => hne (by rw [importSource, e])
  · exact fun b hb => runs_of_ok rfl hb (le_refl _) trivial

/-- The pool that a build leaves, whether it succeeds or not. -/
def poolLeft (d : Draft) : GrowingPool :=
  match d.assembleClass ⟨.empty, .off⟩ with
  | .ok _ b | .error _ b => b.pool

end Draft

/-! ## Dependencies -/

theorem mem_eraseReps {α : Type} [BEq α] [LawfulBEq α] {x : α} {as : List α} :
    x ∈ as.eraseReps ↔ x ∈ as := by
  have hloop (a : α) (as done : List α) :
      x ∈ List.eraseRepsBy.loop (· == ·) a as done ↔ x ∈ done ∨ x ∈ a :: as := by
    induction as generalizing a done with
    | nil => simp [List.eraseRepsBy.loop, or_comm]
    | cons b as ih =>
      unfold List.eraseRepsBy.loop
      split
      · rename_i e
        rw [ih, eq_of_beq e]
        simp
      · rw [ih, List.mem_cons, List.mem_cons (a := x) (b := a), or_assoc, or_left_comm]
  cases as with
  | nil => rfl
  | cons a as => exact (hloop a as []).trans (by simp)

namespace ClassFile

theorem mem_sortedOnce {s : String} {texts : List String} : s ∈ sortedOnce texts ↔ s ∈ texts := by
  rw [sortedOnce, mem_eraseReps, List.mem_mergeSort]

/-- The entries for classes. -/
def classEntries (c : ClassFile) : List (UInt16 × Constant) :=
  c.pool.usable.filter fun (_, entry) => Role.classRef.accepts entry

/-- A class whose pool is a part of that of another depends on nothing else. -/
theorem dependencies_subset {c r : ClassFile} (hc : c.pool.size < 0x10000)
    (hr : r.pool.size < 0x10000) (h : (importSource r).EmbedsIn (importSource c))
    {names : List String} (hnames : c.dependencies = .ok names) :
    ∃ names', r.dependencies = .ok names' ∧ names' ⊆ names := by
  obtain ⟨entry, method, hembeds⟩ := h
  obtain ⟨all, hall, hsorted⟩ := exceptBind_eq_ok.1 hnames
  cases hsorted
  have hname (e : UInt16 × Constant) (he : e ∈ r.classEntries) :
      ∃ name, r.pool.className e.1 = .ok name ∧ name ∈ all := by
    obtain ⟨i, d⟩ := e
    obtain ⟨hm, hrole⟩ := List.mem_filter.1 he
    obtain ⟨hd, hu⟩ := (Pool.mem_usable hr).1 hm
    have hsame := hembeds.same i ⟨d, hd, hu⟩
    obtain ⟨d', hd', hrole'⟩ := (hsame.holds .classRef).2 ⟨d, hd, hrole⟩
    obtain ⟨t, ht, ht'⟩ := hsame
    obtain ⟨_, hd'', hu'⟩ := ht.isEntry
    cases hd'.symm.trans hd''
    have hmem : (entry i, d') ∈ c.classEntries :=
      List.mem_filter.2 ⟨(Pool.mem_usable hc).2 ⟨hd', hu'⟩, hrole'⟩
    obtain ⟨name, hin, hk⟩ := exists_of_forall₂ (mapM_eq_ok_iff.1 hall).flip _ hmem
    rw [ht.unique (ImportSource.denotes_classRef_iff.2 hk)] at ht'
    exact ⟨name, ht'.className, hin⟩
  have hmap (es : List (UInt16 × Constant)) (hes : ∀ e ∈ es, e ∈ r.classEntries) :
      ∃ all', es.mapM (fun e => r.pool.className e.1) = .ok all' ∧ all' ⊆ all := by
    induction es with
    | nil => exact ⟨[], rfl, List.nil_subset _⟩
    | cons e es ih =>
      obtain ⟨hfirst, hrest⟩ := List.forall_mem_cons.1 hes
      obtain ⟨name, he, hin⟩ := hname e hfirst
      obtain ⟨rest, hm, hsub⟩ := ih hrest
      exact ⟨name :: rest, mapM_eq_ok_iff.2 (.cons he (mapM_eq_ok_iff.1 hm)),
        List.cons_subset.2 ⟨hin, hsub⟩⟩
  obtain ⟨all', hall', hsub⟩ := hmap r.classEntries fun _ he => he
  refine ⟨sortedOnce all', exceptBind_eq_ok.2 ⟨all', hall', rfl⟩, fun s hs => ?_⟩
  exact mem_sortedOnce.2 (hsub (mem_sortedOnce.1 hs))

end ClassFile

/-! ## Rebuilding -/

namespace Draft

variable {bytes : Bytes} {c : ClassFile}

theorem filling_poolLeft (h : ClassFile.read bytes = .ok c) {d : Draft} (hd : ofClass c = .ok d) :
    GrowingPool.Filling (importSource c) d.poolLeft := by
  have hrun := fillsFrom_assembleClass h hd ⟨.empty, .off⟩ GrowingPool.filling_empty
  unfold poolLeft
  split
  · rename_i hx
    exact (hrun.ok hx).1
  · rename_i hx
    exact (hrun.error hx).1

/-- The pool of a class that was built is the one the build leaves. -/
theorem importSource_of_build (h : ClassFile.read bytes = .ok c) {d : Draft}
    (hd : ofClass c = .ok d) {r : ClassFile} (hr : d.build = .ok r) :
    importSource r = d.poolLeft.source := by
  obtain ⟨-, -, -, -, -, hbase, -⟩ := ofClass_eq_ok.1 hd
  have hsupplies : d.baseSource.Supplies Symbol.IsValid := by
    rw [baseSource, hbase]
    exact supplies_of_read h
  obtain ⟨-, b, hb⟩ := build_eq_ok.1 hr
  obtain ⟨g, rfl, -, hpost⟩ := settles_assembleClass Symbol.named_isValid hsupplies .empty r b
    GrowingPool.inv_empty hb
  rw [(hpost g.source (le_refl _)).importSource_eq, poolLeft, hb]

theorem hasRoom_build (h : ClassFile.read bytes = .ok c) {d : Draft} (hd : ofClass c = .ok d) :
    HasRoom d.build := by
  have hrun := fillsFrom_assembleClass h hd ⟨.empty, .off⟩ GrowingPool.filling_empty
  obtain ⟨-, -, -, -, -, -, -, -, -, hfailure⟩ := ofClass_eq_ok.1 hd
  unfold build buildLogged
  rw [hfailure]
  dsimp only
  split
  · exact failsAs_ok _
  · rename_i e b hx
    exact failsAs_error (hrun.error hx).2.2

/-- A rebuild without edits invents nothing. The pool is filled by single requests, after each of
which it is a part of that of the class, until the build has succeeded or failed. So the new pool
has no more slots, the class depends on nothing new, and no failure is for want of room. -/
theorem rebuild_embeds (hread : ClassFile.read bytes = .ok c) :
    (∀ d, ofClass c = .ok d → d.poolLeft.FilledFrom (importSource c) ∧
      d.poolLeft.pool.size ≤ c.pool.size ∧
      d.poolLeft.bootstrap.size ≤ c.bootstrapMethods.length) ∧
    (∀ r, (ofClass c >>= build) = .ok r →
      (importSource r).EmbedsIn (importSource c) ∧ r.pool.size ≤ c.pool.size ∧
      ∀ names, c.dependencies = .ok names →
        ∃ names', r.dependencies = .ok names' ∧ names' ⊆ names) ∧
    ∀ e, (ofClass c >>= build) = .error e →
      e ≠ .poolOverflow ∧ ∀ n, e ≠ .tooManyEntries .newBootstrapMethods n := by
  obtain ⟨texts, codes, -, pool, body, hpool, -⟩ := ClassFile.read_eq_ok_iff.1 hread
  have hspread := hpool.isReadable.isSpread
  have hsizes {g : GrowingPool} (hg : GrowingPool.Filling (importSource c) g) :
      g.pool.size ≤ c.pool.size ∧ g.bootstrap.size ≤ c.bootstrapMethods.length := by
    obtain ⟨entry, method, hembeds⟩ := hg.covered.embedsIn
    exact ⟨hembeds.size_le hg.covered.consistent.isSpread hspread, hembeds.bootstrap_size_le⟩
  refine ⟨fun d hd => ?_, fun r hr => ?_, fun e he => ?_⟩
  · have hg := filling_poolLeft hread hd
    exact ⟨hg.filled, hsizes hg⟩
  · obtain ⟨d, hd, hr⟩ := exceptBind_eq_ok.1 hr
    have hg := filling_poolLeft hread hd
    have hsource := importSource_of_build hread hd hr
    have hembeds := hg.covered.embedsIn
    have hsize : r.pool.size ≤ c.pool.size := by
      rw [show r.pool = d.poolLeft.pool from congrArg ImportSource.pool hsource]
      exact (hsizes hg).1
    rw [← hsource] at hembeds
    refine ⟨hembeds, hsize, fun names => ClassFile.dependencies_subset hspread.size ?_ hembeds⟩
    exact Nat.lt_of_le_of_lt hsize hspread.size
  · have hfull : e.isFull = false := by
      cases hd : ofClass c with
      | error e' =>
        rw [hd] at he
        cases he
        exact hasRoom_ofClass c _ hd
      | ok d =>
        rw [hd] at he
        exact hasRoom_build hread hd e he
    refine ⟨?_, fun n => ?_⟩
    · rintro rfl
      cases hfull
    · rintro rfl
      cases hfull

theorem rebuild_embeds_load :
    ClassFile.read withLoad = .ok loadClass ∧ ofClass loadClass = .ok (loadDraft []) ∧
      (loadDraft []).poolLeft.FilledFrom (importSource loadClass) ∧
      loadClass.dependencies = .ok ["A"] ∧ ∃ r, (ofClass loadClass >>= build) = .ok r ∧
        (importSource r).EmbedsIn (importSource loadClass) ∧ r.pool.size ≤ loadClass.pool.size ∧
        ∃ names, r.dependencies = .ok names ∧ names ⊆ ["A"] := by
  obtain ⟨hleft, hbuilt, -⟩ := rebuild_embeds read_withLoad
  have hbuild : (ofClass loadClass >>= build) = .ok _ :=
    exceptBind_eq_ok.2 ⟨_, ofClass_loadClass, build_load ⟨0x21⟩ none⟩
  have hnames : loadClass.dependencies = .ok ["A"] := by cbv
  obtain ⟨hembeds, hsize, hdepends⟩ := hbuilt _ hbuild
  exact ⟨read_withLoad, ofClass_loadClass, (hleft _ ofClass_loadClass).1, hnames, _, hbuild,
    hembeds, hsize, hdepends _ hnames⟩

end Draft

end JvmClass
