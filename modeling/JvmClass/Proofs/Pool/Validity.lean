import JvmClass.Proofs.Code.Growth
import JvmClass.Proofs.Codec.Code
import JvmClass.Proofs.Pool.Acyclic

/-!
# Valid pools

An entry asks a role of each entry it refers to, and so does a bootstrap method. Whether they are
met can be told from what the entries stand for (`Symbol.IsValid`). So entries that are copied out
of a valid pool are valid wherever they are entered, and a pool that was grown from them passes
every check that reading makes. It has no cycles, since every entry stands for a finite symbol.
-/

namespace JvmClass

theorem forall₂_replicate_append {α β : Type} {R : α → β → Prop} {a : α} {as : List α}
    {bs cs : List β} :
    List.Forall₂ R (List.replicate bs.length a ++ as) (bs ++ cs) ↔
      (∀ b ∈ bs, R a b) ∧ List.Forall₂ R as cs := by
  induction bs with
  | nil => simp
  | cons b bs ih =>
    rw [List.length_cons, List.replicate_succ, List.cons_append, List.cons_append,
      List.forall₂_cons, ih, List.forall_mem_cons, and_assoc]

/-! ## Roles -/

theorem Pool.Holds.mono {S G : ImportSource} (hle : S ≤ G) {role : Role} {i : UInt16}
    (h : S.pool.Holds role i) : G.pool.Holds role i := by
  obtain ⟨c, hc, hrole⟩ := h
  exact ⟨c, ImportSource.get?_mono hle hc, hrole⟩

/-- The kind of an entry does not depend on its references. -/
theorem Role.accepts_head (role : Role) (c : Constant) :
    role.accepts c.head = role.accepts c := by
  cases role <;> cases c <;> rfl

namespace Constant

/-- What an entry asks of those it refers to; nothing will do for a handle of an unknown kind. -/
def roles? : Constant → Option (List Role)
  | classRef _ | stringRef _ | moduleRef _ | packageRef _ | methodType _ => some [.anyText]
  | fieldRef .. | methodRef .. | interfaceMethodRef .. => some [.classRef, .nameAndType]
  | nameAndType .. => some [.anyText, .text]
  | methodHandle kind _ => (Pool.handleRole? kind).map fun role => [role]
  | dynamic .. | invokeDynamic .. => some [.nameAndType]
  | _ => some []

/-- What an entry asks of all that it refers to, also through its bootstrap method: `count`
entries. -/
def rolesOf? (c : Constant) (count : Nat) : Option (List Role) :=
  match c.bootstrap? with
  | none => c.roles?
  | some _ => c.roles?.map fun roles =>
    .methodHandle :: List.replicate (count - 2) .bootstrapArgument ++ roles

theorem rolesOf?_head (c : Constant) (count : Nat) : c.head.rolesOf? count = c.rolesOf? count := by
  cases c <;> rfl

end Constant

namespace Pool

theorem expect_eq_ok {p : Pool} {i j : UInt16} {role : Role} :
    p.expect i j role = .ok () ↔ p.Holds role j := by
  unfold expect Holds
  cases p.get? j with
  | none => simp
  | some c => by_cases h : role.accepts c = true <;> simp [h]

theorem expect_both_eq_ok {p : Pool} {index i j : UInt16} {role role' : Role} :
    (do p.expect index i role; p.expect index j role') = .ok () ↔
      p.Holds role i ∧ p.Holds role' j := by
  rw [exceptBind_eq_ok, ← expect_eq_ok (p := p) (i := index) (j := i),
    ← expect_eq_ok (p := p) (i := index) (j := j)]
  exact ⟨fun ⟨_, hi, hj⟩ => ⟨hi, hj⟩, fun ⟨hi, hj⟩ => ⟨(), hi, hj⟩⟩

/-- An entry passes its check exactly if its roles are met. -/
theorem checkEntry_eq_ok {p : Pool} {index : UInt16} {c : Constant} :
    p.checkEntry index c = .ok () ↔
      ∃ roles, c.roles? = some roles ∧ List.Forall₂ p.Holds roles c.references := by
  cases c with
  | utf8 | utf8Unpaired | integer | float | long | double | unusable =>
    exact iff_of_true rfl ⟨[], rfl, .nil⟩
  | classRef i | stringRef i | moduleRef i | packageRef i | methodType i =>
    simp [checkEntry, Constant.roles?, Constant.references, expect_eq_ok]
  | fieldRef i j | methodRef i j | interfaceMethodRef i j | nameAndType i j =>
    rw [checkEntry, expect_both_eq_ok]
    simp [Constant.roles?, Constant.references]
  | methodHandle kind i =>
    rw [checkEntry]
    cases hk : handleRole? kind <;>
      simp [Constant.roles?, Constant.references, expect_eq_ok, hk]
  | dynamic m i | invokeDynamic m i =>
    simp [checkEntry, Constant.roles?, Constant.references, expect_eq_ok]

theorem mem_usable {p : Pool} (hp : p.size < 0x10000) {i : UInt16} {c : Constant} :
    (i, c) ∈ p.usable ↔ p.get? i = some c ∧ c.isUnusable = false := by
  unfold usable
  rw [List.mem_filterMap]
  constructor
  · rintro ⟨⟨d, k⟩, hm, h⟩
    dsimp only at h
    obtain ⟨hk, hlt, hget⟩ := List.mem_zipIdx hm
    split at h
    · cases h
    · rename_i hu
      cases h
      rw [Array.length_toList] at hlt
      have hn : (UInt16.ofNat k).toNat = k := toNat_unit (by unfold size at hp; omega)
      refine ⟨get?_eq_some_iff.2 ⟨fun e => ?_, ?_⟩, by simpa using hu⟩
      · rw [e] at hn
        simp at hn
        omega
      · rw [hn, hget]
        exact List.getElem?_eq_getElem _
  · rintro ⟨hc, hu⟩
    obtain ⟨hi, hget⟩ := get?_eq_some_iff.1 hc
    have hne : i.toNat ≠ 0 := fun e => hi (UInt16.toNat_inj.1 e)
    refine ⟨(c, i.toNat), ?_, by simp [hu]⟩
    rw [List.mk_mem_zipIdx_iff_le_and_getElem?_sub]
    exact ⟨by omega, hget⟩

theorem validate_eq_ok {p : Pool} (hp : p.size < 0x10000) :
    p.validate = .ok () ↔ ∀ i c, p.get? i = some c → c.isUnusable = false →
      ∃ roles, c.roles? = some roles ∧ List.Forall₂ p.Holds roles c.references := by
  unfold validate
  rw [forM_eq_ok]
  constructor
  · intro h i c hc hu
    exact checkEntry_eq_ok.1 (h (i, c) ((mem_usable hp).2 ⟨hc, hu⟩))
  · rintro h ⟨i, c⟩ hm
    obtain ⟨hc, hu⟩ := (mem_usable hp).1 hm
    exact checkEntry_eq_ok.2 (h i c hc hu)

/-- What a bootstrap method asks of the entries it refers to. -/
def HoldsBootstrap (p : Pool) (m : BootstrapMethod) : Prop :=
  p.Holds .methodHandle m.method ∧ ∀ argument ∈ m.arguments, p.Holds .bootstrapArgument argument

/-- Every entry that is computed has its bootstrap method in the table. -/
def BootstrapInRange (p : Pool) (methods : List BootstrapMethod) : Prop :=
  ∀ i c m, p.get? i = some c → c.bootstrap? = some m → m.toNat < methods.length

/-- Where indices and roles are right, the search for cycles decides. -/
theorem validateBootstrap_eq {p : Pool} (hp : p.size < 0x10000) {methods : List BootstrapMethod}
    (hrange : p.BootstrapInRange methods) (hroles : ∀ m ∈ methods, p.HoldsBootstrap m) :
    p.validateBootstrap methods = p.checkAcyclic methods.toArray := by
  unfold validateBootstrap
  refine (exceptBind_run (forM_eq_ok.2 ?_)).trans (exceptBind_run (forM_eq_ok.2 fun m hm => ?_))
  · rintro ⟨i, c⟩ hm
    obtain ⟨hc, -⟩ := (mem_usable hp).1 hm
    cases c with
    | dynamic m j | invokeDynamic m j =>
      have hlt := hrange i _ m hc rfl
      simp [hlt]
    | _ => rfl
  · obtain ⟨hmethod, harguments⟩ := hroles m hm
    exact exceptBind_eq_ok.2 ⟨(), expect_eq_ok.2 hmethod,
      forM_eq_ok.2 fun a ha => expect_eq_ok.2 (harguments a ha)⟩

theorem validateBootstrap_eq_ok {p : Pool} (hp : p.size < 0x10000)
    {methods : List BootstrapMethod} :
    p.validateBootstrap methods = .ok () ↔ p.BootstrapInRange methods ∧
      (∀ m ∈ methods, p.HoldsBootstrap m) ∧ p.checkAcyclic methods.toArray = .ok () := by
  constructor
  · unfold validateBootstrap
    simp only [exceptBind_eq_ok]
    rintro ⟨_, hentries, _, hmethods, hacyclic⟩
    refine ⟨fun i c m hc hm => ?_, fun m hm => ?_, hacyclic⟩
    · cases c with
      | dynamic m j | invokeDynamic m j =>
        cases hm
        have hi := forM_eq_ok.1 hentries _ ((mem_usable hp).2 ⟨hc, rfl⟩)
        by_contra hlt
        simp [hlt] at hi
      | _ => cases hm
    · obtain ⟨_, hmethod, harguments⟩ := exceptBind_eq_ok.1 (forM_eq_ok.1 hmethods m hm)
      exact ⟨expect_eq_ok.1 hmethod, fun a ha => expect_eq_ok.1 (forM_eq_ok.1 harguments a ha)⟩
  · rintro ⟨hrange, hroles, hacyclic⟩
    rw [validateBootstrap_eq hp hrange hroles, hacyclic]

/-- The search for cycles fails wherever an entry depends on itself. -/
theorem isAcyclic_of_checkAcyclic {p : Pool} (hp : p.size < 0x10000)
    {bootstrap : Array BootstrapMethod} (h : p.checkAcyclic bootstrap = .ok ()) :
    p.IsAcyclic bootstrap := by
  intro entry hcycle
  obtain ⟨argument, hfirst, -⟩ := Relation.TransGen.head'_iff.1 hcycle
  have hdynamic : ∃ method member, p.get? entry = some (.dynamic method member) := by
    have ha := hfirst.1
    unfold dynamicArguments at ha
    split at ha
    · exact ⟨_, _, by assumption⟩
    · cases ha
  obtain ⟨method, member, hc⟩ := hdynamic
  refine not_transGen_of_acc (acc_of_checkAcyclic h ((mem_usable hp).2 ⟨hc, rfl⟩) rfl ?_) hcycle
  simp [isDynamicAt, hc, Constant.isDynamic]

end Pool

/-! ## Valid symbols -/

namespace Symbol

def head : Symbol → Constant
  | node h _ => h

/-- The parts of a symbol are in the roles that it asks of them. -/
def IsValid : Symbol → Prop
  | node h parts => ∃ roles, h.rolesOf? parts.length = some roles ∧
      List.Forall₂ (fun role t => role.accepts t.head = true) roles parts

/-- All that is entered by name is valid. -/
theorem named_isValid : Named IsValid where
  leaf c hr hb hrefs := by
    refine ⟨[], ?_, .nil⟩
    cases c with
    | utf8 | utf8Unpaired | integer | float | long | double | unusable => rfl
    | dynamic | invokeDynamic => cases hb
    | _ => cases hrefs
  classRef name := ⟨[.anyText], rfl, .cons rfl .nil⟩
  stringRef s := ⟨[.anyText], rfl, .cons rfl .nil⟩
  nameAndType name descriptor := ⟨[.anyText, .text], rfl, .cons rfl (.cons rfl .nil)⟩
  member head h owner name descriptor := by
    refine ⟨[.classRef, .nameAndType], ?_, .cons rfl (.cons rfl .nil)⟩
    rcases h with rfl | rfl | rfl <;> rfl

end Symbol

namespace ImportSource

variable {S : ImportSource}

theorem Denotes.holds_iff {i : UInt16} {t : Symbol} (h : S.Denotes i t) (role : Role) :
    S.pool.Holds role i ↔ role.accepts t.head = true := by
  obtain ⟨c, is, parts, hc, -, -, -, rfl⟩ := denotes_iff.1 h
  rw [Pool.Holds, hc]
  simp [Symbol.head, Role.accepts_head]

theorem accepts_iff_holds {is : List UInt16} {parts : List Symbol}
    (h : List.Forall₂ S.Denotes is parts) (roles : List Role) :
    List.Forall₂ (fun role t => role.accepts t.head = true) roles parts ↔
      List.Forall₂ S.pool.Holds roles is := by
  induction h generalizing roles with
  | nil => rw [List.forall₂_nil_right_iff, List.forall₂_nil_right_iff]
  | cons hi _ ih =>
    cases roles with
    | nil => simp
    | cons role roles => rw [List.forall₂_cons, List.forall₂_cons, hi.holds_iff role, ih]

/-- The references of an entry are in the roles it asks for. -/
def EntryHolds (S : ImportSource) (c : Constant) : Prop :=
  (∃ roles, c.roles? = some roles ∧ List.Forall₂ S.pool.Holds roles c.references) ∧
    ∀ m b, c.bootstrap? = some m → S.bootstrap[m.toNat]? = some b → S.pool.HoldsBootstrap b

/-- Whether the references of an entry are in their roles can be told from what it stands for. -/
theorem isValid_iff {c : Constant} {is : List UInt16} {parts : List Symbol}
    (his : S.references? c = some is) (hparts : List.Forall₂ S.Denotes is parts) :
    (Symbol.node c.head parts).IsValid ↔ S.EntryHolds c := by
  have hlength : parts.length = is.length := hparts.length_eq.symm
  rw [Symbol.IsValid, Constant.rolesOf?_head, EntryHolds]
  simp only [accepts_iff_holds hparts, hlength]
  unfold references? at his
  unfold Constant.rolesOf?
  cases hb : c.bootstrap? with
  | none =>
    rw [hb] at his
    cases his
    simp
  | some m =>
    rw [hb] at his
    obtain ⟨b, hm, rfl⟩ := Option.map_eq_some_iff.1 his
    have hcount (roles : List Role) (h : c.roles? = some roles) :
        (b.method :: b.arguments ++ c.references).length - 2 = b.arguments.length := by
      cases c <;> cases hb <;> simp [Constant.references]
    constructor
    · rintro ⟨_, hmap, hall⟩
      obtain ⟨roles, hr, rfl⟩ := Option.map_eq_some_iff.1 hmap
      rw [hcount roles hr, List.cons_append, List.cons_append, List.forall₂_cons,
        forall₂_replicate_append] at hall
      refine ⟨⟨roles, hr, hall.2.2⟩, fun m' b' e hm' => ?_⟩
      cases e
      cases hm.symm.trans hm'
      exact ⟨hall.1, hall.2.1⟩
    · rintro ⟨⟨roles, hr, hall⟩, hbootstrap⟩
      obtain ⟨hmethod, harguments⟩ := hbootstrap m b rfl hm
      refine ⟨_, Option.map_eq_some_iff.2 ⟨roles, hr, rfl⟩, ?_⟩
      rw [hcount roles hr, List.cons_append, List.cons_append, List.forall₂_cons,
        forall₂_replicate_append]
      exact ⟨hmethod, harguments, hall⟩

/-- What the entries of a valid pool stand for is valid. -/
theorem Denotes.isValid (hp : S.pool.size < 0x10000) (hvalid : S.pool.validate = .ok ())
    (hbootstrap : S.pool.validateBootstrap S.bootstrap.toList = .ok ()) {i : UInt16} {t : Symbol}
    (h : S.Denotes i t) : t.IsValid := by
  obtain ⟨c, is, parts, hc, hu, his, hparts, rfl⟩ := denotes_iff.1 h
  rw [isValid_iff his hparts]
  refine ⟨(Pool.validate_eq_ok hp).1 hvalid i c hc hu, fun m b _ hm => ?_⟩
  refine ((Pool.validateBootstrap_eq_ok hp).1 hbootstrap).2.1 b ?_
  rw [← Array.getElem?_toList] at hm
  exact List.mem_of_getElem? hm

theorem Denotes.className {i : UInt16} {name : String} (h : S.Denotes i (.classRef name)) :
    S.pool.className i = .ok name := by
  obtain ⟨c, is, parts, hc, -, his, hparts, e⟩ := denotes_iff.1 h
  cases c <;> cases e
  cases his
  obtain ⟨hname, -⟩ := List.forall₂_cons.1 hparts
  have htext := Pool.text_eq_ok.2 (denotes_text_iff.1 hname)
  rw [Pool.className, Pool.get_eq_ok.2 hc]
  exact htext

theorem denotes_classRef_iff {i : UInt16} {name : String} :
    S.Denotes i (.classRef name) ↔ S.pool.className i = .ok name := by
  refine ⟨Denotes.className, fun h => ?_⟩
  obtain ⟨c, hc, h⟩ := exceptBind_eq_ok.1 h
  cases c with
  | classRef k =>
    have hk := denotes_text_iff.2 (Pool.text_eq_ok.1 h)
    exact denotes_iff.2 ⟨_, [k], _, Pool.get_eq_ok.1 hc, rfl, rfl, .cons hk .nil, rfl⟩
  | _ => cases h

/-- What an entry refers to stands for less than the entry does. -/
theorem Denotes.exists_part {i j : UInt16} {t : Symbol} (h : S.Denotes i t) {c : Constant}
    (hc : S.pool.get? i = some c) {is : List UInt16} (his : S.references? c = some is)
    (hj : j ∈ is) : ∃ u, S.Denotes j u ∧ sizeOf u < sizeOf t := by
  obtain ⟨c', is', parts, hc', -, his', hparts, rfl⟩ := denotes_iff.1 h
  cases hc.symm.trans hc'
  cases his.symm.trans his'
  obtain ⟨part, hm, hpart⟩ := exists_of_forall₂ (R := flip S.Denotes) hparts.flip j hj
  refine ⟨part, hpart, ?_⟩
  have hlt := List.sizeOf_lt_of_mem hm
  simp
  omega

/-- The size of what an entry stands for. -/
noncomputable def rank (S : ImportSource) (i : UInt16) : Nat :=
  open Classical in if h : ∃ t, S.Denotes i t then sizeOf h.choose else 0

theorem Denotes.rank_eq {i : UInt16} {t : Symbol} (h : S.Denotes i t) : S.rank i = sizeOf t := by
  have hex : ∃ t, S.Denotes i t := ⟨t, h⟩
  rw [rank, dif_pos hex, hex.choose_spec.unique h]

/-- An entry stands for more than any entry it refers to. -/
theorem Denotes.rank_lt {i j : UInt16} {t : Symbol} (h : S.Denotes i t) {c : Constant}
    (hc : S.pool.get? i = some c) {is : List UInt16} (his : S.references? c = some is)
    (hj : j ∈ is) : S.rank j < S.rank i := by
  obtain ⟨u, hu, hlt⟩ := h.exists_part hc his hj
  rwa [h.rank_eq, hu.rank_eq]

end ImportSource

theorem SameSymbol.holds {S G : ImportSource} {i j : UInt16} (h : SameSymbol S i G j)
    (role : Role) : S.pool.Holds role i ↔ G.pool.Holds role j := by
  obtain ⟨t, ht, ht'⟩ := h
  rw [ht.holds_iff, ht'.holds_iff]

/-! ## Grown pools are valid -/

namespace GrowingPool

variable {g : GrowingPool}

theorem Inv.denotes {P : Symbol → Prop} (h : g.Inv P) {i : UInt16} {c : Constant}
    (hc : g.pool.get? i = some c) (hu : c.isUnusable = false) : ∃ is parts,
      g.source.references? c = some is ∧ List.Forall₂ g.source.Denotes is parts ∧
        g.source.Denotes i (.node c.head parts) ∧ P (.node c.head parts) := by
  obtain ⟨t, ht, hp⟩ := h.symbols i c hc (h.isReadable hc hu)
  obtain ⟨c', is, parts, hc', -, his, hparts, rfl⟩ := ImportSource.denotes_iff.1 ht
  cases hc.symm.trans hc'
  exact ⟨is, parts, his, hparts, ht, hp⟩

theorem Inv.entryHolds (h : g.Inv Symbol.IsValid) {i : UInt16} {c : Constant}
    (hc : g.pool.get? i = some c) (hu : c.isUnusable = false) : g.source.EntryHolds c := by
  obtain ⟨is, parts, his, hparts, -, hvalid⟩ := h.denotes hc hu
  exact (ImportSource.isValid_iff his hparts).1 hvalid

theorem Inv.validate (h : g.Inv Symbol.IsValid) : g.pool.validate = .ok () := by
  have hsize := h.readable.1
  exact (Pool.validate_eq_ok (by omega)).2 fun i c hc hu => (h.entryHolds hc hu).1

theorem isUnusable_of_bootstrap? {c : Constant} {m : UInt16} (h : c.bootstrap? = some m) :
    c.isUnusable = false := by
  cases c <;> first | rfl | cases h

theorem Inv.bootstrap_lt {P : Symbol → Prop} (h : g.Inv P) {i m : UInt16} {c : Constant}
    (hc : g.pool.get? i = some c) (hm : c.bootstrap? = some m) : m.toNat < g.bootstrap.size := by
  obtain ⟨is, parts, his, -⟩ := h.denotes hc (isUnusable_of_bootstrap? hm)
  rw [ImportSource.references?, hm] at his
  obtain ⟨b, hb, -⟩ := Option.map_eq_some_iff.1 his
  exact (Array.getElem?_eq_some_iff.1 hb).choose

/-- The arguments of a dynamic entry stand for less than the entry. -/
theorem Inv.rank_lt {P : Symbol → Prop} (h : g.Inv P) {entry argument : UInt16}
    (ha : argument ∈ g.pool.dynamicArguments g.bootstrap entry) :
    g.source.rank argument < g.source.rank entry := by
  unfold Pool.dynamicArguments at ha
  split at ha
  · rename_i m j hc
    obtain ⟨is, parts, his, -, hentry, -⟩ := h.denotes hc rfl
    refine hentry.rank_lt hc his ?_
    obtain ⟨b, hb, rfl⟩ := Option.map_eq_some_iff.1 his
    change g.bootstrap[m.toNat]? = some b at hb
    rw [hb] at ha
    simp only [Option.map_some, Option.getD_some] at ha
    simp [ha]
  · cases ha

theorem Grows.validateBootstrap (h : empty.Grows Symbol.IsValid g) :
    g.pool.validateBootstrap g.bootstrap.toList = .ok () := by
  have hsize := h.inv.readable.1
  refine (Pool.validateBootstrap_eq_ok (by omega)).2 ⟨fun i c m hc hm => ?_, fun b hb => ?_, ?_⟩
  · rw [Array.length_toList]
    exact h.inv.bootstrap_lt hc hm
  · obtain ⟨k, hk, e⟩ := List.mem_iff_getElem.1 hb
    rw [Array.length_toList] at hk
    obtain ⟨i, c, m, hc, hm, rfl⟩ := h.uses k (Nat.zero_le k) hk
    refine (h.inv.entryHolds hc (isUnusable_of_bootstrap? hm)).2 m b hm ?_
    rw [← e, Array.getElem_toList]
    exact Array.getElem?_eq_getElem hk
  · rw [Array.toArray_toList]
    exact Pool.checkAcyclic_eq_ok fun entry argument ha _ => h.inv.rank_lt ha

end GrowingPool

end JvmClass
