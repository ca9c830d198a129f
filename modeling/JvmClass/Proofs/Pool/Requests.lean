import JvmClass.Proofs.Pool.Faithful

/-!
# Pools under construction

`Grow.Request` is what can be asked of a growing pool, and `Grow.runAll` the pool after any number
of requests, each of which may fail half-way. Such a pool is regular, grows at its end only, and
answers every request that has once succeeded as it did then (`Grow.regular_runAll`). It passes the
checks on references as long as handles are made of what they may refer to, and entries are copied
from pools that pass them. An entry that is imported into it stands for what it stood for in its own
pool (`Grow.importEntry_faithful`).
-/

namespace JvmClass

/-! ## Requests -/

namespace Grow

/-- What can be asked of a growing pool. -/
inductive Request where
  | text (s : String)
  | integer (i : Int32)
  | float (bits : UInt32)
  | long (i : Int64)
  | double (bits : UInt64)
  | classRef (name : String)
  | stringRef (s : String)
  | methodType (descriptor : String)
  | moduleRef (name : String)
  | packageRef (name : String)
  | nameAndType (name descriptor : String)
  | fieldRef (m : MemberName)
  | methodRef (m : MemberName)
  | interfaceMethodRef (m : MemberName)
  | methodHandle (kind : UInt8) (reference : UInt16)
  | bootstrapMethod (m : BootstrapMethod)
  | dynamic (m : BootstrapMethod) (name descriptor : String)
  | invokeDynamic (m : BootstrapMethod) (name descriptor : String)
  | importEntry (source : ImportSource) (index : UInt16)
  | importOptional (source : ImportSource) (index : UInt16)

namespace Request

def run : Request → Grow UInt16
  | text s => Grow.text s
  | integer i => Grow.integer i
  | float bits => Grow.float bits
  | long i => Grow.long i
  | double bits => Grow.double bits
  | classRef name => Grow.classRef name
  | stringRef s => Grow.stringRef s
  | methodType descriptor => Grow.methodType descriptor
  | moduleRef name => Grow.moduleRef name
  | packageRef name => Grow.packageRef name
  | nameAndType name descriptor => Grow.nameAndType name descriptor
  | fieldRef m => Grow.fieldRef m
  | methodRef m => Grow.methodRef m
  | interfaceMethodRef m => Grow.interfaceMethodRef m
  | methodHandle kind reference => Grow.methodHandle kind reference
  | bootstrapMethod m => Grow.bootstrapMethod m
  | dynamic m name descriptor => Grow.dynamic m name descriptor
  | invokeDynamic m name descriptor => Grow.invokeDynamic m name descriptor
  | importEntry source index => Grow.importEntry source index
  | importOptional source index => Grow.importOptional source index

/-- Requests that are answered by the index of an entry: all but those for a bootstrap method and
for nothing. -/
def NamesEntry : Request → Prop
  | bootstrapMethod _ => False
  | importOptional _ index => index ≠ 0
  | _ => True

/-- The answer `i` to a request names the same in two pools. -/
def SameAnswer (i : UInt16) (g h : GrowingPool) : Request → Prop
  | bootstrapMethod m => g.bootstrap[i.toNat]? = some m ∧ h.bootstrap[i.toNat]? = some m
  | importOptional _ 0 => i = 0
  | _ => ∃ c, c.isUnusable = false ∧ g.pool.get? i = some c ∧ h.pool.get? i = some c

end Request

/-! ## Answers -/

/-- A repeatable request that hands out the index of an entry. -/
structure ServesEntry (x : Grow UInt16) : Prop where
  repeatable : Repeatable x
  finds : ∀ g i g', g.Consistent → x g = .ok i g' →
    ∃ c, c.isUnusable = false ∧ g'.pool.get? i = some c

theorem servesEntry_add (c : Constant) (hu : c.isUnusable = false) : ServesEntry (add c) where
  repeatable := repeatable_add hu
  finds g i g' hg h := by
    obtain ⟨d, hd, hdu, -⟩ := add_found hg hu h
    exact ⟨d, hdu, hd⟩

theorem Repeatable.servesEntry {α : Type} {x : Grow α} (hx : Repeatable x)
    {f : α → Grow UInt16} (hf : ∀ a, ServesEntry (f a)) : ServesEntry (x >>= f) where
  repeatable := hx.bind fun a => (hf a).repeatable
  finds g i g' hg h := by
    obtain ⟨a, g1, h1, h2⟩ := bind_eq_ok.1 h
    exact (hf a).finds g1 i g' ((hx.runs g hg).ok h1).1 h2

theorem servesEntry_importEntry (S : ImportSource) (i : UInt16) :
    ServesEntry (importEntry S i) where
  repeatable := repeatable_importWithin S _ i
  finds g j g' hg h := by
    obtain ⟨-, -, hsame⟩ := ((copying_sameSpelling S).importEntry i g hg).ok h
    obtain ⟨c, hc, hu⟩ := hsame.exists_entry
    exact ⟨c, hu, hc⟩

theorem importOptional_of_ne {i : UInt16} (h : i ≠ 0) (S : ImportSource) :
    importOptional S i = importEntry S i :=
  if_neg h

namespace Request

theorem servesEntry {r : Request} (h : r.NamesEntry) : ServesEntry r.run := by
  cases r with
  | text s => exact servesEntry_add (.utf8 s) rfl
  | integer i => exact servesEntry_add (.integer i) rfl
  | float bits => exact servesEntry_add (.float bits) rfl
  | long i => exact servesEntry_add (.long i) rfl
  | double bits => exact servesEntry_add (.double bits) rfl
  | methodHandle kind i => exact servesEntry_add (.methodHandle kind i) rfl
  | classRef s | stringRef s | methodType s | moduleRef s | packageRef s =>
    exact (repeatable_text s).servesEntry fun _ => servesEntry_add _ rfl
  | nameAndType name descriptor =>
    exact (repeatable_text name).servesEntry fun _ =>
      (repeatable_text descriptor).servesEntry fun _ => servesEntry_add _ rfl
  | fieldRef m | methodRef m | interfaceMethodRef m =>
    exact (repeatable_classRef m.owner).servesEntry fun _ =>
      (repeatable_nameAndType m.name m.descriptor).servesEntry fun _ => servesEntry_add _ rfl
  | bootstrapMethod m => exact h.elim
  | dynamic m name descriptor | invokeDynamic m name descriptor =>
    exact (repeatable_bootstrapMethod m).servesEntry fun _ =>
      (repeatable_nameAndType name descriptor).servesEntry fun _ => servesEntry_add _ rfl
  | importEntry S i => exact servesEntry_importEntry S i
  | importOptional S i =>
    rw [run, importOptional_of_ne h]
    exact servesEntry_importEntry S i

theorem repeatable_run (r : Request) : Repeatable r.run := by
  by_cases h : r.NamesEntry
  · exact (servesEntry h).repeatable
  · cases r with
    | bootstrapMethod m => exact repeatable_bootstrapMethod m
    | importOptional S i =>
      rw [not_not.1 h]
      exact repeatable_pure 0
    | _ => exact absurd trivial h

/-- What an answer names stays there as long as the pool grows. -/
theorem sameAnswer_of_le (r : Request) {i : UInt16} {g g' h : GrowingPool} (hg : g.Consistent)
    (hrun : r.run g = .ok i g') (hle : g'.source ≤ h.source) : r.SameAnswer i g' h := by
  unfold SameAnswer
  split
  · rename_i m
    have hm := bootstrapMethod_found hg hrun
    exact ⟨hm, ImportSource.bootstrap_mono hle hm⟩
  · exact (pure_eq_ok.1 hrun).1
  · rename_i hmethod hnone
    have hnames : r.NamesEntry := by
      cases r with
      | bootstrapMethod m => exact hmethod m rfl
      | importOptional S k => exact fun hk => hnone S (by rw [hk])
      | _ => trivial
    obtain ⟨c, hu, hc⟩ := (servesEntry hnames).finds g i g' hg hrun
    exact ⟨c, hu, hc, ImportSource.get?_mono hle hc⟩

end Request

/-! ## Many requests -/

/-- The pool that a request leaves, also where it fails. -/
def leaves (x : Grow UInt16) (g : GrowingPool) : GrowingPool :=
  match x g with
  | .ok _ g' => g'
  | .error _ g' => g'

/-- The pool after requests, each of which may fail. -/
def runAll : List Request → GrowingPool → GrowingPool
  | [], g => g
  | r :: rs, g => runAll rs (leaves r.run g)

theorem runAll_append (rs rs' : List Request) (g : GrowingPool) :
    runAll (rs ++ rs') g = runAll rs' (runAll rs g) := by
  induction rs generalizing g with
  | nil => rfl
  | cons r rs ih => exact ih _

theorem leaves_of_runs {I : GrowingPool → Prop} {E : Error → Prop} {x : Grow UInt16}
    {g : GrowingPool} {post : UInt16 → GrowingPool → Prop}
    (h : Runs GrowingPool.source I E x g post) :
    I (leaves x g) ∧ g.source ≤ (leaves x g).source := by
  unfold leaves
  cases hx : x g with
  | ok i g' => exact ⟨(h.ok hx).1, (h.ok hx).2.1⟩
  | error e g' => exact ⟨(h.error hx).1, (h.error hx).2.1⟩

theorem runAll_consistent (rs : List Request) {g : GrowingPool} (hg : g.Consistent) :
    (runAll rs g).Consistent ∧ g.source ≤ (runAll rs g).source := by
  induction rs generalizing g with
  | nil => exact ⟨hg, le_refl _⟩
  | cons r rs ih =>
    obtain ⟨hg', hle⟩ := leaves_of_runs (r.repeatable_run.runs g hg)
    obtain ⟨hg'', hle'⟩ := ih hg'
    exact ⟨hg'', le_trans hle hle'⟩

end Grow

/-- What a pool under construction looks like, whatever was asked of it. -/
structure GrowingPool.Regular (g : GrowingPool) : Prop where
  distinct : ∀ i j c d, g.pool.get? i = some c → c.isUnusable = false →
    g.pool.get? j = some d → d.isUnusable = false → c.encode = d.encode → i = j
  secondSlots : ∀ k, g.pool.slots[k]? = some .unusable ↔
    ∃ j c, k = j + 1 ∧ g.pool.slots[j]? = some c ∧ c.slots = 2
  size : g.pool.size ≤ 65534
  bootstrap : g.bootstrap.toList.Nodup

theorem GrowingPool.Consistent.regular {g : GrowingPool} (h : g.Consistent) : g.Regular where
  distinct i j c d hc hcu hd hdu e := h.unique hc hcu hd hdu e
  secondSlots k := by
    obtain ⟨entries, he, hentries⟩ := h.spread
    obtain ⟨hfirst, hsecond⟩ := Pool.spread_second hentries
    rw [← he] at hfirst hsecond
    simp only [Array.getElem?_toList] at hfirst hsecond
    cases k with
    | zero => simpa using hfirst
    | succ k => simpa using hsecond k
  size := Nat.le_of_lt_succ h.size
  bootstrap := h.bootstrap_nodup

/-! ## Checked references -/

/-- The references of an entry are to entries of the right kinds. -/
def Pool.Meets (p : Pool) (c : Constant) : Prop :=
  ∃ roles, c.roles? = some roles ∧ List.Forall₂ p.Holds roles c.references

theorem Pool.Meets.mono {S G : ImportSource} (hle : S ≤ G) {c : Constant} (h : S.pool.Meets c) :
    G.pool.Meets c := by
  obtain ⟨roles, hr, hall⟩ := h
  exact ⟨roles, hr, hall.imp fun _ _ hi => hi.mono hle⟩

/-- A pool that was read and checked. -/
theorem Pool.checked_of_decode {p : Pool} {bytes : Bytes} {length : Nat}
    (h : decode bytes = .ok (p, length)) : p.IsReadable ∧ p.validate = .ok () := by
  obtain ⟨c, h⟩ := Reader.runOn_eq_ok.1 h
  obtain ⟨q, c1, hq, h⟩ := bind_eq_ok.1 h
  obtain ⟨_, c2, hvalid, h⟩ := bind_eq_ok.1 h
  obtain ⟨n, c3, -, h⟩ := bind_eq_ok.1 h
  cases (pure_eq_ok.1 h).1
  obtain ⟨used, rest, ⟨texts, hs⟩, -⟩ := (reads_read bytes 0 _ c1).1 hq
  exact ⟨hs.isReadable, (ofExcept_eq_ok.1 hvalid).1⟩

theorem Constant.roles?_head (c : Constant) : c.head.roles? = c.roles? := by
  cases c <;> rfl

namespace GrowingPool

/-- A pool whose entries can all be read back and pass the check of their references. -/
structure Checked (g : GrowingPool) : Prop where
  consistent : g.Consistent
  readable : ∀ i c, g.pool.get? i = some c → c.isUnusable = false → c.IsReadable
  meets : ∀ i c, g.pool.get? i = some c → c.isUnusable = false → g.pool.Meets c

variable {g : GrowingPool}

theorem checked_empty : empty.Checked where
  consistent := consistent_empty
  readable i c h := by simp [empty, Pool.empty, Pool.get?] at h
  meets i c h := by simp [empty, Pool.empty, Pool.get?] at h

theorem Checked.validate (h : g.Checked) : g.pool.validate = .ok () := by
  have hsize := h.consistent.size
  exact (Pool.validate_eq_ok (by omega)).2 h.meets

theorem Checked.enter (h : g.Checked) {c : Constant} {key : Bytes} (hr : c.IsReadable)
    (hm : g.pool.Meets c) (hkey : c.encode = .ok key) (hnew : g.indices[key]? = none)
    (hfit : g.pool.size + c.slots < 0xFFFF) : (g.enter c key).Checked := by
  have hle := g.le_enter c key
  have hcons := h.consistent.enter (Constant.isUnusable_of_isReadable hr) hkey hnew hfit
  refine ⟨hcons, fun i d hd hdu => ?_, fun i d hd hdu => ?_⟩
  · rcases Pool.get?_append_cases hfit hd with hd | ⟨-, rfl⟩ | rfl
    · exact h.readable i d hd hdu
    · exact hr
    · cases hdu
  · rcases Pool.get?_append_cases hfit hd with hd | ⟨-, rfl⟩ | rfl
    · exact (h.meets i d hd hdu).mono hle
    · exact hm.mono hle
    · cases hdu

theorem Checked.enterBootstrap (h : g.Checked) {m : BootstrapMethod}
    (hnew : g.bootstrapIndices[m]? = none) (hfit : g.bootstrap.size < 0x10000) :
    (g.enterBootstrap m).Checked :=
  ⟨h.consistent.enterBootstrap hnew hfit, h.readable, h.meets⟩

end GrowingPool

namespace Grow

open GrowingPool

/-- Whatever becomes of the request, a checked pool stays one. -/
abbrev KeepsChecked (x : Grow UInt16) (g : GrowingPool) (post : UInt16 → GrowingPool → Prop) :
    Prop :=
  Runs GrowingPool.source Checked (fun _ => True) x g post

section Checked

variable {g : GrowingPool} (hg : g.Checked)

include hg

theorem keepsChecked_add {c : Constant} (hr : c.IsReadable) (hm : g.pool.Meets c) :
    KeepsChecked (add c) g fun j g' => g'.pool.get? j = some c := by
  refine runs_add hg (fun key j hkey hj => ?_)
    (fun key hkey hnew hfit => ⟨hg.enter hr hm hkey hnew hfit, Pool.get?_append_next hfit⟩)
    (fun _ _ => trivial) fun _ _ _ _ => trivial
  obtain ⟨d, hd, hdu, hde⟩ := (hg.consistent.indexed key j).1 hj
  rwa [Constant.eq_of_encode_eq hr (hg.readable j d hd hdu) hkey hde]

theorem keepsChecked_bootstrapMethod (m : BootstrapMethod) :
    KeepsChecked (bootstrapMethod m) g fun k g' => g'.bootstrap[k.toNat]? = some m :=
  runs_bootstrapMethod hg (fun i hi => (hg.consistent.bootstrapIndexed m i).1 hi)
    (fun hnew hfit => ⟨hg.enterBootstrap hnew hfit, getElem?_enterBootstrap hfit m⟩)
    fun _ _ => trivial

theorem keepsChecked_text (s : String) :
    KeepsChecked (text s) g fun j g' => g'.pool.get? j = some (.utf8 s) :=
  keepsChecked_add hg trivial ⟨[], rfl, .nil⟩

/-- An entry that refers to one text of any form. -/
theorem keepsChecked_naming (entry : UInt16 → Constant) (hentry : ∀ i, (entry i).IsReadable ∧
    (entry i).roles? = some [.anyText] ∧ (entry i).references = [i]) (s : String) :
    KeepsChecked (do add (entry (← text s))) g fun j g' =>
      ∃ i, g'.pool.get? j = some (entry i) := by
  refine (keepsChecked_text hg s).bind fun i g1 hg1 _ hi => ?_
  obtain ⟨hr, hroles, hrefs⟩ := hentry i
  refine (keepsChecked_add hg1 hr ⟨_, hroles, ?_⟩).mono fun j g2 _ _ _ hj => ⟨i, hj⟩
  rw [hrefs]
  exact .cons ⟨_, hi, rfl⟩ .nil

theorem keepsChecked_nameAndType (name descriptor : String) :
    KeepsChecked (nameAndType name descriptor) g fun j g' => g'.pool.Holds .nameAndType j := by
  refine (keepsChecked_text hg name).bind fun a g1 hg1 _ ha => ?_
  refine (keepsChecked_text hg1 descriptor).bind fun b g2 hg2 le2 hb => ?_
  have ha2 : g2.pool.Holds .anyText a := Pool.Holds.mono le2 ⟨_, ha, rfl⟩
  have hmeets : g2.pool.Meets (.nameAndType a b) :=
    ⟨[.anyText, .text], rfl, .cons ha2 (.cons ⟨_, hb, rfl⟩ .nil)⟩
  exact (keepsChecked_add (c := .nameAndType a b) hg2 trivial hmeets).mono
    fun j g3 _ _ _ hj => ⟨_, hj, rfl⟩

/-- A reference to a member, by any of the three entries. -/
theorem keepsChecked_member (entry : UInt16 → UInt16 → Constant)
    (hentry : ∀ i j, (entry i j).IsReadable ∧
      (entry i j).roles? = some [.classRef, .nameAndType] ∧ (entry i j).references = [i, j])
    (m : MemberName) : KeepsChecked (member entry m) g fun _ _ => True := by
  refine (keepsChecked_naming hg .classRef (fun _ => ⟨trivial, rfl, rfl⟩) m.owner).bind
    fun a g1 hg1 _ ⟨i, ha⟩ => ?_
  refine (keepsChecked_nameAndType hg1 m.name m.descriptor).bind fun b g2 hg2 le2 hb => ?_
  have ha2 : g2.pool.Holds .classRef a := Pool.Holds.mono le2 ⟨_, ha, rfl⟩
  obtain ⟨hr, hroles, hrefs⟩ := hentry a b
  refine (keepsChecked_add hg2 hr ⟨_, hroles, ?_⟩).mono fun _ _ _ _ _ _ => trivial
  rw [hrefs]
  exact .cons ha2 (.cons hb .nil)

/-- A dynamic entry. Its bootstrap method is not looked at. -/
theorem keepsChecked_computed (entry : UInt16 → UInt16 → Constant)
    (hentry : ∀ i j, (entry i j).IsReadable ∧
      (entry i j).roles? = some [.nameAndType] ∧ (entry i j).references = [j])
    (m : BootstrapMethod) (name descriptor : String) :
    KeepsChecked (computed entry m name descriptor) g fun _ _ => True := by
  refine (keepsChecked_bootstrapMethod hg m).bind fun k g1 hg1 _ _ => ?_
  refine (keepsChecked_nameAndType hg1 name descriptor).bind fun b g2 hg2 _ hb => ?_
  obtain ⟨hr, hroles, hrefs⟩ := hentry k b
  refine (keepsChecked_add hg2 hr ⟨_, hroles, ?_⟩).mono fun _ _ _ _ _ _ => trivial
  rw [hrefs]
  exact .cons hb .nil

end Checked

/-- The entry `j` of `G` is of the same kind as the entry `i` of `S`, with the same data. -/
def SameHead (S G : ImportSource) (i j : UInt16) : Prop :=
  ∃ c d, S.pool.get? i = some c ∧ G.pool.get? j = some d ∧ d.head = c.head

theorem SameHead.holds {S G : ImportSource} {i j : UInt16} (h : SameHead S G i j) {role : Role}
    (hi : S.pool.Holds role i) : G.pool.Holds role j := by
  obtain ⟨c, d, hc, hd, hhead⟩ := h
  obtain ⟨c', hc', hrole⟩ := hi
  cases hc.symm.trans hc'
  refine ⟨d, hd, ?_⟩
  rwa [← role.accepts_head, hhead, role.accepts_head]

theorem forall₂_holds {S G : ImportSource} {roles : List Role} {is js : List UInt16}
    (hroles : List.Forall₂ S.pool.Holds roles is)
    (h : List.Forall₂ (fun i j => SameHead S G i j) is js) :
    List.Forall₂ G.pool.Holds roles js := by
  induction hroles generalizing js with
  | nil =>
    cases h
    exact .nil
  | cons hi _ ih =>
    cases h with
    | cons hij hrest => exact .cons (hij.holds hi) (ih hrest)

/-- Entries of a pool that passes the checks can be copied into one that does. -/
theorem copying_checked {S : ImportSource} (hr : S.pool.IsReadable)
    (hvalid : S.pool.validate = .ok ()) :
    Copying S Checked (fun _ => True) fun G i j => SameHead S G i j where
  mono G H i j hle h := by
    obtain ⟨c, d, hc, hd, hhead⟩ := h
    exact ⟨c, d, hc, ImportSource.get?_mono hle hd, hhead⟩
  entry i c d g hc hu hg hd := by
    have hsize := hr.1
    obtain ⟨roles, hroles, hall⟩ := (Pool.validate_eq_ok (by omega)).1 hvalid i c hc hu
    have hdr : d.IsReadable := by
      rw [← d.isReadable_head, hd.head, c.isReadable_head]
      exact hr.get? hc hu
    have hmeets : g.pool.Meets d := by
      refine ⟨roles, by rw [← d.roles?_head, hd.head, c.roles?_head, hroles], ?_⟩
      exact forall₂_holds hall hd.references
    exact (keepsChecked_add hg hdr hmeets).mono fun j g' _ _ _ hj => ⟨c, d, hc, hj, hd.head⟩
  method m b b' g _ hg _ _ := keepsChecked_bootstrapMethod hg b'
  malformed _ _ := trivial
  unexpected _ _ := trivial

/-! ## Requests that keep the checks -/

/-- Handles are made of what they may refer to, and entries are copied from pools that were read
and checked. -/
def Request.Permitted (g : GrowingPool) : Request → Prop
  | methodHandle kind reference =>
    ∃ role, Pool.handleRole? kind = some role ∧ g.pool.Holds role reference
  | importEntry source _ | importOptional source _ =>
    ∃ bytes length, Pool.decode bytes = .ok (source.pool, length)
  | _ => True

/-- Each request is permitted when its turn comes. -/
def PermittedAll : List Request → GrowingPool → Prop
  | [], _ => True
  | r :: rs, g => r.Permitted g ∧ PermittedAll rs (leaves r.run g)

theorem keepsChecked_import {S : ImportSource} {bytes : Bytes} {length : Nat}
    (h : Pool.decode bytes = .ok (S.pool, length)) (i : UInt16) {g : GrowingPool}
    (hg : g.Checked) : KeepsChecked (importEntry S i) g fun _ _ => True := by
  obtain ⟨hr, hvalid⟩ := Pool.checked_of_decode h
  exact ((copying_checked hr hvalid).importEntry i g hg).mono fun _ _ _ _ _ _ => trivial

theorem Request.keepsChecked {r : Request} {g : GrowingPool} (hg : g.Checked)
    (hr : r.Permitted g) : KeepsChecked r.run g fun _ _ => True := by
  have hleaf {c : Constant} (hc : c.IsReadable) (hm : g.pool.Meets c) :
      KeepsChecked (add c) g fun _ _ => True :=
    (keepsChecked_add hg hc hm).mono fun _ _ _ _ _ _ => trivial
  have hname (entry : UInt16 → Constant) (hentry : ∀ i, (entry i).IsReadable ∧
      (entry i).roles? = some [.anyText] ∧ (entry i).references = [i]) (s : String) :
      KeepsChecked (do add (entry (← Grow.text s))) g fun _ _ => True :=
    (keepsChecked_naming hg entry hentry s).mono fun _ _ _ _ _ _ => trivial
  cases r with
  | text s => exact hleaf (c := .utf8 s) trivial ⟨[], rfl, .nil⟩
  | integer i => exact hleaf (c := .integer i) trivial ⟨[], rfl, .nil⟩
  | float bits => exact hleaf (c := .float bits) trivial ⟨[], rfl, .nil⟩
  | long i => exact hleaf (c := .long i) trivial ⟨[], rfl, .nil⟩
  | double bits => exact hleaf (c := .double bits) trivial ⟨[], rfl, .nil⟩
  | classRef s => exact hname .classRef (fun _ => ⟨trivial, rfl, rfl⟩) s
  | stringRef s => exact hname .stringRef (fun _ => ⟨trivial, rfl, rfl⟩) s
  | methodType s => exact hname .methodType (fun _ => ⟨trivial, rfl, rfl⟩) s
  | moduleRef s => exact hname .moduleRef (fun _ => ⟨trivial, rfl, rfl⟩) s
  | packageRef s => exact hname .packageRef (fun _ => ⟨trivial, rfl, rfl⟩) s
  | nameAndType name descriptor =>
    exact (keepsChecked_nameAndType hg name descriptor).mono fun _ _ _ _ _ _ => trivial
  | fieldRef m => exact keepsChecked_member hg .fieldRef (fun _ _ => ⟨trivial, rfl, rfl⟩) m
  | methodRef m => exact keepsChecked_member hg .methodRef (fun _ _ => ⟨trivial, rfl, rfl⟩) m
  | interfaceMethodRef m =>
    exact keepsChecked_member hg .interfaceMethodRef (fun _ _ => ⟨trivial, rfl, rfl⟩) m
  | methodHandle kind i =>
    obtain ⟨role, hrole, hi⟩ := hr
    have hmeets : g.pool.Meets (.methodHandle kind i) :=
      ⟨[role], by rw [Constant.roles?, hrole, Option.map_some], .cons hi .nil⟩
    exact hleaf (c := .methodHandle kind i) trivial hmeets
  | bootstrapMethod m =>
    exact (keepsChecked_bootstrapMethod hg m).mono fun _ _ _ _ _ _ => trivial
  | dynamic m name descriptor =>
    exact keepsChecked_computed hg .dynamic (fun _ _ => ⟨trivial, rfl, rfl⟩) m name descriptor
  | invokeDynamic m name descriptor =>
    exact keepsChecked_computed hg .invokeDynamic (fun _ _ => ⟨trivial, rfl, rfl⟩) m name descriptor
  | importEntry S i =>
    obtain ⟨bytes, length, hS⟩ := hr
    exact keepsChecked_import hS i hg
  | importOptional S i =>
    obtain ⟨bytes, length, hS⟩ := hr
    by_cases hi : i = 0
    · subst hi
      exact runs_pure hg trivial
    · rw [run, importOptional_of_ne hi]
      exact keepsChecked_import hS i hg

theorem runAll_checked {rs : List Request} {g : GrowingPool} (hg : g.Checked)
    (hrs : PermittedAll rs g) : (runAll rs g).Checked := by
  induction rs generalizing g with
  | nil => exact hg
  | cons r rs ih => exact ih (leaves_of_runs (r.keepsChecked hg hrs.1)).1 hrs.2

theorem PermittedAll.of_append {rs rs' : List Request} {g : GrowingPool}
    (h : PermittedAll (rs ++ rs') g) : PermittedAll rs g := by
  induction rs generalizing g with
  | nil => trivial
  | cons r rs ih => exact ⟨h.1, ih h.2⟩

/-! ## Any number of requests -/

/-- After any requests, some of which may have failed, a pool that began empty is regular. It has
only grown at its end, so that every answer still names what it named, and a request that has
succeeded is answered as it was, without a change. If all requests were permitted, the pool has
passed the check of its references all the time. -/
theorem regular_runAll (rs : List Request) :
    (runAll rs .empty).Regular ∧
      (∀ before later, rs = before ++ later →
        (runAll before .empty).source ≤ (runAll rs .empty).source) ∧
      (∀ before r later i g, rs = before ++ r :: later → r.run (runAll before .empty) = .ok i g →
        r.SameAnswer i g (runAll rs .empty) ∧
          r.run (runAll rs .empty) = .ok i (runAll rs .empty)) ∧
      (PermittedAll rs .empty → ∀ before later, rs = before ++ later →
        (runAll before .empty).pool.validate = .ok ()) := by
  have hrs := (runAll_consistent rs GrowingPool.consistent_empty).1
  have hbefore (before : List Request) : (runAll before .empty).Consistent :=
    (runAll_consistent before GrowingPool.consistent_empty).1
  refine ⟨hrs.regular, ?_, ?_, ?_⟩
  · rintro before later rfl
    rw [runAll_append]
    exact (runAll_consistent later (hbefore before)).2
  · rintro before r later i g rfl hrun
    have hle : g.source ≤ (runAll (before ++ r :: later) .empty).source := by
      have hg := ((r.repeatable_run.runs _ (hbefore before)).ok hrun).1
      rw [runAll_append, runAll, leaves, hrun]
      exact (runAll_consistent later hg).2
    exact ⟨r.sameAnswer_of_le (hbefore before) hrun hle,
      r.repeatable_run.again _ i g (hbefore before) hrun _ hrs hle⟩
  · rintro hpermitted before later rfl
    exact (runAll_checked GrowingPool.checked_empty hpermitted.of_append).validate

/-- An entry that is not listed comes behind those that are. -/
theorem add_listed {g : GrowingPool} {cs : List Constant} {c : Constant} {key : Bytes}
    (hg : g.Checked) (hs : g.pool.slots.toList = cs) (hr : c.IsReadable) (hm : g.pool.Meets c)
    (hkey : c.encode = .ok key) (hslots : c.slots = 1) (hnew : c ∉ cs)
    (hfit : cs.length + 1 < 0xFFFF) :
    ∃ g', add c g = .ok (UInt16.ofNat (cs.length + 1)) g' ∧ g'.Checked ∧
      g'.pool.slots.toList = cs ++ [c] := by
  have hsize : g.pool.size = cs.length := by
    rw [← hs, Array.length_toList]
    rfl
  have hnone : g.indices[key]? = none := by
    cases hi : g.indices[key]? with
    | none => rfl
    | some i =>
      obtain ⟨d, hd, hdu, hde⟩ := (hg.consistent.indexed key i).1 hi
      cases Constant.eq_of_encode_eq hr (hg.readable i d hd hdu) hkey hde
      exact absurd (hs ▸ List.mem_of_getElem? (Pool.get?_eq_some_iff.1 hd).2) hnew
  have hfit' : g.pool.size + c.slots < 0xFFFF := by omega
  refine ⟨g.enter c key, ?_, hg.enter hr hm hkey hnone hfit', ?_⟩
  · rw [← hsize]
    exact add_eq_ok.2 ⟨key, hkey, .inr ⟨hnone, hfit', rfl, rfl⟩⟩
  · show (g.pool.append c).slots.toList = _
    rw [Pool.slots_append, hs, Pool.spread, List.flatMap_singleton, if_neg (by omega)]

/-- A pool of one number. -/
def oneNumber : ImportSource := ⟨⟨#[.integer 7]⟩, #[]⟩

theorem decode_oneNumber : Pool.decode [0, 2, 3, 0, 0, 0, 7] = .ok (oneNumber.pool, 7) := rfl

/-- A field and a handle on it, the number, and an entry that is not there. -/
def handleRequests : List Request :=
  [.fieldRef ⟨"A", "b", "I"⟩, .methodHandle 1 6, .importEntry oneNumber 1,
    .importEntry oneNumber 2]

theorem holds_fieldRef :
    (leaves (Request.fieldRef ⟨"A", "b", "I"⟩).run .empty).pool.Holds .fieldRef 6 := by
  have hentry {g : GrowingPool} {cs : List Constant} (hs : g.pool.slots.toList = cs) (role : Role)
      {i : UInt16} {c : Constant} (hi : i ≠ 0) (hc : cs[i.toNat - 1]? = some c)
      (ha : role.accepts c = true) : g.pool.Holds role i :=
    ⟨c, Pool.get?_eq_some_iff.2 ⟨hi, hs ▸ hc⟩, ha⟩
  have s0 : GrowingPool.empty.pool.slots.toList = [] := rfl
  obtain ⟨g1, h1, l1, s1⟩ := add_listed (c := .utf8 "A") checked_empty s0 trivial
    ⟨[], rfl, .nil⟩ rfl rfl (by simp) (by decide)
  obtain ⟨g2, h2, l2, s2⟩ := add_listed (c := .classRef 1) l1 s1 trivial
    ⟨_, rfl, .cons (hentry s1 .anyText (by decide) rfl rfl) .nil⟩ rfl rfl (by simp) (by decide)
  obtain ⟨g3, h3, l3, s3⟩ := add_listed (c := .utf8 "b") l2 s2 trivial ⟨[], rfl, .nil⟩ rfl rfl
    (by simp) (by decide)
  obtain ⟨g4, h4, l4, s4⟩ := add_listed (c := .utf8 "I") l3 s3 trivial ⟨[], rfl, .nil⟩ rfl rfl
    (by simp) (by decide)
  obtain ⟨g5, h5, l5, s5⟩ := add_listed (c := .nameAndType 3 4) l4 s4 trivial
    ⟨_, rfl, .cons (hentry s4 .anyText (by decide) rfl rfl)
      (.cons (hentry s4 .text (by decide) rfl rfl) .nil)⟩ rfl rfl (by simp) (by decide)
  obtain ⟨g6, h6, l6, s6⟩ := add_listed (c := .fieldRef 2 5) l5 s5 trivial
    ⟨_, rfl, .cons (hentry s5 .classRef (by decide) rfl rfl)
      (.cons (hentry s5 .nameAndType (by decide) rfl rfl) .nil)⟩ rfl rfl (by simp) (by decide)
  have hclass : Grow.classRef "A" .empty = .ok 2 g2 := by
    rw [Grow.classRef, Grow.text, bind_run h1]
    exact h2
  have hmember : Grow.nameAndType "b" "I" g2 = .ok 5 g5 := by
    rw [Grow.nameAndType, Grow.text, bind_run h3, Grow.text, bind_run h4]
    exact h5
  have hrun : (Request.fieldRef ⟨"A", "b", "I"⟩).run .empty = .ok 6 g6 := by
    rw [Request.run, Grow.fieldRef, Grow.member, bind_run hclass, bind_run hmember]
    exact h6
  rw [leaves, hrun]
  exact hentry s6 .fieldRef (by decide) rfl rfl

theorem regular_runAll_handle :
    PermittedAll handleRequests .empty ∧
      (runAll handleRequests .empty).pool.validate = .ok () := by
  have hpermitted : PermittedAll handleRequests .empty :=
    ⟨trivial, ⟨.fieldRef, rfl, holds_fieldRef⟩, ⟨_, _, decode_oneNumber⟩, ⟨_, _, decode_oneNumber⟩,
      trivial⟩
  exact ⟨hpermitted,
    (regular_runAll handleRequests).2.2.2 hpermitted handleRequests [] (List.append_nil _).symm⟩

/-- Into a pool that any requests have led to, from any pool: an import is refused, or the entry at
the index that it hands out stands for what the imported one stands for, with texts by their code
units. Neither changes what was there. An entry that reaches itself is refused. -/
theorem importEntry_faithful (rs : List Request) (S : ImportSource) (i : UInt16) :
    (match importEntry S i (runAll rs .empty) with
      | .ok j g => SameSpelling S i g.source j ∧ (runAll rs .empty).source ≤ g.source
      | .error _ g => (runAll rs .empty).source ≤ g.source) ∧
      (Relation.TransGen S.Refers i i →
        ∃ e g, importEntry S i (runAll rs .empty) = .error e g) := by
  have hg := (runAll_consistent rs GrowingPool.consistent_empty).1
  have hruns := (copying_sameSpelling S).importEntry i (runAll rs .empty) hg
  cases h : importEntry S i (runAll rs .empty) with
  | ok j g =>
    obtain ⟨-, hle, hsame⟩ := hruns.ok h
    refine ⟨⟨hsame, hle⟩, fun hcycle => ?_⟩
    obtain ⟨t, ht⟩ := requires_importWithin _ i _ j g h
    exact absurd ⟨_, ht⟩ (ImportSource.not_denotes_of_cycle hcycle t)
  | error e g => exact ⟨(hruns.error h).2.1, fun _ => ⟨e, g, rfl⟩⟩

/-- A dynamic constant that is an argument of the method which computes it. -/
def ownArgument : ImportSource := ⟨⟨#[.dynamic 0 2]⟩, #[⟨3, [1]⟩]⟩

theorem importEntry_faithful_ownArgument :
    Relation.TransGen ownArgument.Refers 1 1 ∧
      ∃ e g, importEntry ownArgument 1 (runAll handleRequests .empty) = .error e g := by
  have hcycle : Relation.TransGen ownArgument.Refers 1 1 :=
    .single ⟨.dynamic 0 2, rfl, .inr ⟨0, ⟨3, [1]⟩, rfl, rfl, .inr (by decide)⟩⟩
  exact ⟨hcycle, (importEntry_faithful handleRequests ownArgument 1).2 hcycle⟩

end Grow

end JvmClass
