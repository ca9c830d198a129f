import JvmClass.Edit.Build
import JvmClass.Proofs.Codec.ClassFile
import JvmClass.Proofs.Edit.Drafts
import JvmClass.Proofs.Pool.Validity
import JvmClass.Proofs.Relocation.Attributes

/-!
# Runs of a build

What a build that succeeds has entered into its pool, and what of the draft became what of the
class. Members that are copied are copies in the sense of `Member.Copied`; new members and new
code only add to the pool, and so leave the copies alone. New code takes the place of the old among
copies of the other attributes (`Attribute.Replaced`). `Assembled` collects this for a whole class,
together with the reason why it is settled: a draft of the class itself asks for the same entries in
the same order.
-/

namespace JvmClass

open Relocation Draft

/-! ## Requests of a build -/

section Requests

variable {α : Type} {P : Symbol → Prop}

/-- A settled run, and the run itself. -/
theorem Settles.remember {x : Build α} {post : ImportSource → GrowingPool → α → GrowingPool → Prop}
    (h : Settles P x post) :
    Settles P x fun G g y g' => post G g y g' ∧ x ⟨g, .off⟩ = .ok y ⟨g', .off⟩ := by
  intro g y b hg hx
  obtain ⟨g', rfl, grows, hpost⟩ := h g y b hg hx
  exact ⟨g', rfl, grows, fun G hG => ⟨hpost G hG, hx⟩⟩

/-- A run that only grows the pool. -/
abbrev OnlyGrows (P : Symbol → Prop) (x : Build α) : Prop := Settles P x fun _ _ _ _ => True

theorem Settles.onlyGrows {x : Build α}
    {post : ImportSource → GrowingPool → α → GrowingPool → Prop} (h : Settles P x post) :
    OnlyGrows P x :=
  h.mono fun _ _ _ _ _ => trivial

theorem onlyGrows_bind {β : Type} {x : Build α} {f : α → Build β} (hx : OnlyGrows P x)
    (hf : ∀ y, OnlyGrows P (f y)) : OnlyGrows P (x >>= f) :=
  (hx.bind hf).onlyGrows

theorem onlyGrows_pure (y : α) : OnlyGrows P (pure y) := (settles_pure y).onlyGrows

theorem settles_grow {x : Grow UInt16} {t : Symbol} (hx : Grow.Enters P x t) :
    Settles P (Build.grow x) fun G _ i _ => G.Denotes i t := by
  intro g i b hg h
  obtain ⟨g', rfl, hi⟩ := grow_eq_ok.1 h
  obtain ⟨grows, ht⟩ := hx g i g' hg hi
  exact ⟨g', rfl, grows, fun G hG => ht.mono hG⟩

/-- With no log, nothing is recorded. -/
theorem Settles.record {x : Build α} {post : ImportSource → GrowingPool → α → GrowingPool → Prop}
    (h : Settles P x post) (e : Event) : Settles P (do Build.record e; x) post :=
  fun g y b hg hx => h g y b hg hx

theorem settles_get :
    Settles P (get : Build Building) fun _ g b g' => b = ⟨g, .off⟩ ∧ g' = g := by
  intro g y b hg h
  cases h
  exact ⟨g, rfl, .refl hg, fun _ _ => ⟨rfl, rfl⟩⟩

end Requests

/-! ## Attributes of a method with new code -/

/-- The commands are emitted as this code, for a method with these flags and this descriptor, into
a pool that has become `G`. -/
def CodeBody.EmittedFrom (P : Symbol → Prop) (G : ImportSource) (commands : List Command)
    (access : Access) (descriptor : String) (body : CodeBody) : Prop :=
  ∃ g g', g.Inv P ∧ Code.emit commands access.isStatic descriptor g = .ok body g' ∧ g'.source ≤ G

namespace Attribute

/-- A `Code` attribute with the code that the commands are emitted as. -/
def EmittedFrom (P : Symbol → Prop) (G : ImportSource) (commands : List Command) (access : Access)
    (descriptor : String) (a : Attribute) : Prop :=
  ∃ name body, a = ⟨name, .code body⟩ ∧ G.Denotes name (.text "Code") ∧
    body.EmittedFrom P G commands access descriptor

/-- The code that an attribute holds. -/
def body? (a : Attribute) : Option CodeBody :=
  match a.payload with
  | .code body => some body
  | _ => none

/-- The code among attributes: one body, unless a method has none. -/
def bodies (as : List Attribute) : List CodeBody := as.filterMap body?

/-- The attributes that hold no code. -/
def others (as : List Attribute) : List Attribute := as.filter (·.body?.isNone)

variable {S G : ImportSource} {moved : Option OffsetMap}

theorem Copied.body?_cases {a a' : Attribute} (h : Attribute.Copied S G moved a a') :
    (a.body? = none ∧ a'.body? = none) ∨
      ∃ body body', a.body? = some body ∧ a'.body? = some body' ∧
        CodeBody.Copied S G body body' := by
  obtain ⟨-, hp⟩ := h
  cases hp with
  | code hbody => exact .inr ⟨_, _, rfl, rfl, hbody⟩
  | _ => exact .inl ⟨rfl, rfl⟩

theorem IsLeftOut.body?_eq {a : Attribute} (h : a.IsLeftOut) : a.body? = none := by
  unfold body?
  rcases h with ⟨methods, h⟩ | ⟨bytes, h⟩ <;> rw [h]

/-- Code is copied as code. -/
theorem AllCopied.bodies {as as' : List Attribute} (h : AllCopied S G moved as as') :
    List.Forall₂ (CodeBody.Copied S G) (bodies as) (bodies as') := by
  unfold Attribute.bodies
  induction as generalizing as' with
  | nil =>
    cases h
    exact .nil
  | cons a as ih =>
    cases h with
    | leftOut hout h =>
      rw [List.filterMap_cons_none hout.body?_eq]
      exact ih h
    | copied hcopied h =>
      obtain ⟨ha, ha'⟩ | ⟨body, body', ha, ha', hbody⟩ := hcopied.body?_cases
      · rw [List.filterMap_cons_none ha, List.filterMap_cons_none ha']
        exact ih h
      · rw [List.filterMap_cons_some ha, List.filterMap_cons_some ha']
        exact .cons hbody (ih h)

/-- What is no code is copied as no code. -/
theorem AllCopied.others {as as' : List Attribute} (h : AllCopied S G moved as as') :
    AllCopied S G moved (others as) (others as') := by
  unfold Attribute.others
  induction as generalizing as' with
  | nil =>
    cases h
    exact .nil
  | cons a as ih =>
    cases h with
    | leftOut hout h =>
      rw [List.filter_cons_of_pos (by rw [hout.body?_eq]; rfl)]
      exact .leftOut hout (ih h)
    | copied hcopied h =>
      obtain ⟨ha, ha'⟩ | ⟨body, body', ha, ha', -⟩ := hcopied.body?_cases
      · rw [List.filter_cons_of_pos (by rw [ha]; rfl), List.filter_cons_of_pos (by rw [ha']; rfl)]
        exact .copied hcopied (ih h)
      · rw [List.filter_cons_of_neg (by rw [ha]; nofun),
          List.filter_cons_of_neg (by rw [ha']; nofun)]
        exact ih h

theorem bodies_others (as : List Attribute) : bodies (others as) = [] := by
  refine List.filterMap_eq_nil_iff.2 fun a ha => ?_
  exact Option.isNone_iff_eq_none.1 (List.mem_filter.1 ha).2

theorem others_others (as : List Attribute) : others (others as) = others as := by
  rw [others, others, List.filter_filter]
  simp

/-- Copies of the attributes `old` without their code, and `new` somewhere among them. -/
def Replaced (S G : ImportSource) (old new as : List Attribute) : Prop :=
  ∃ before after, as = before ++ new ++ after ∧ AllCopied S G none (others old) (before ++ after)

namespace Replaced

variable {S G : ImportSource} {old new as : List Attribute} {a a' : Attribute}

theorem leftOut (h : Replaced S G old new as) (ha : a.body? = none) (hout : a.IsLeftOut) :
    Replaced S G (a :: old) new as := by
  obtain ⟨before, after, rfl, h⟩ := h
  refine ⟨before, after, rfl, ?_⟩
  rw [others, List.filter_cons_of_pos (by rw [ha]; rfl)]
  exact .leftOut hout h

theorem copied (h : Replaced S G old new as) (ha : a.body? = none)
    (hcopied : Attribute.Copied S G none a a') : Replaced S G (a :: old) new (a' :: as) := by
  obtain ⟨before, after, rfl, h⟩ := h
  refine ⟨a' :: before, after, rfl, ?_⟩
  rw [others, List.filter_cons_of_pos (by rw [ha]; rfl)]
  exact .copied hcopied h

/-- What new attributes and copies have in common. -/
theorem forall_mem (h : Replaced S G old new as) {L : Attribute → Prop} (hnew : ∀ a ∈ new, L a)
    (hold : ∀ a ∈ old, ∀ a', Attribute.Copied S G none a a' → L a') : ∀ a ∈ as, L a := by
  obtain ⟨before, after, rfl, h⟩ := h
  have hcopies : ∀ a ∈ before ++ after, L a := by
    intro a' ha'
    obtain ⟨a, ha, hcopied⟩ := exists_of_forall₂ h.forall₂ a' ha'
    exact hold a (List.mem_of_mem_filter (List.mem_of_mem_filter ha)) a' hcopied
  obtain ⟨hbefore, hafter⟩ := List.forall_mem_append.1 hcopies
  exact List.forall_mem_append.2 ⟨List.forall_mem_append.2 ⟨hbefore, hnew⟩, hafter⟩

theorem bodies (h : Replaced S G old [a] as) {body : CodeBody} (ha : a.body? = some body) :
    bodies as = [body] := by
  obtain ⟨before, after, rfl, h⟩ := h
  have hcopies : Attribute.bodies (before ++ after) = [] := by
    have hbodies := h.bodies
    rw [bodies_others] at hbodies
    exact List.forall₂_nil_left_iff.1 hbodies
  unfold Attribute.bodies at hcopies ⊢
  rw [List.filterMap_append, List.append_eq_nil_iff] at hcopies
  rw [List.filterMap_append, List.filterMap_append, hcopies.1, hcopies.2,
    List.filterMap_cons_some ha]
  rfl

theorem others (h : Replaced S G old [a] as) {body : CodeBody} (ha : a.body? = some body) :
    AllCopied S G none (others old) (others as) := by
  obtain ⟨before, after, rfl, h⟩ := h
  have hothers : Attribute.others (before ++ [a] ++ after) =
      Attribute.others (before ++ after) := by
    unfold Attribute.others
    rw [List.filter_append, List.filter_append, List.filter_cons_of_neg (by rw [ha]; nofun),
      List.filter_append]
    simp
  have hcopies := h.others
  rw [others_others] at hcopies
  exact hothers ▸ hcopies

end Replaced

end Attribute

/-! ## Members -/

/-- What becomes of a member that is copied. Nothing is said about another. -/
def MemberDraft.Copied (S G : ImportSource) (d : MemberDraft) (m' : Member) : Prop :=
  ∀ m key access, d = .kept m key access none →
    m'.access = access.getD m.access ∧ m.Copied S G m'

/-- A copied member, and its copy out of `G`. -/
def MemberDraft.Settled (S : ImportSource) (d : MemberDraft) (G : ImportSource) (g : GrowingPool)
    (m' : Member) (g' : GrowingPool) : Prop :=
  d.Copied S G m' ∧
    (d.IsCopy → copyMember G m'.promote m'.access ⟨g, .off⟩ = .ok m'.promote ⟨g', .off⟩)

section Members

variable {P : Symbol → Prop} {S : ImportSource}

theorem settles_copyMember (hS : S.Supplies P) (m : Member) (access : Access) :
    Settles P (copyMember S m access) fun G g m' g' =>
      m'.access = access ∧ m.Copied S G m' ∧
        copyMember G m'.promote m'.access ⟨g, .off⟩ = .ok m'.promote ⟨g', .off⟩ := by
  unfold copyMember
  rw [attributes_eq]
  refine ((settles_index hS m.name).bind fun i => (settles_index hS m.descriptor).bind fun j =>
    (settles_attributes hS none none trivial m.attributes).bind fun as =>
    settles_pure (Member.mk access i j as)).mono ?_
  rintro G g _ _ ⟨i, g1, ⟨hi, ri⟩, j, g2, ⟨hj, rj⟩, as, g3, ⟨has, ras⟩, rfl, rfl⟩
  refine ⟨rfl, ⟨hi, hj, has⟩, ?_⟩
  dsimp only [Member.promote]
  rw [bind_run ri, bind_run rj, attributes_eq, bind_run ras]
  rfl

theorem MemberDraft.settled_of_copy {m : Member} (key : MemberKey) (access : Option Access)
    {G : ImportSource} {g g' : GrowingPool} {m' : Member}
    (h : m'.access = access.getD m.access ∧ m.Copied S G m' ∧
      copyMember G m'.promote m'.access ⟨g, .off⟩ = .ok m'.promote ⟨g', .off⟩) :
    (MemberDraft.kept m key access none).Settled S G g m' g' := by
  obtain ⟨ha, hm, again⟩ := h
  refine ⟨?_, fun _ => again⟩
  rintro _ _ _ ⟨⟩
  exact ⟨ha, hm⟩

/-- Nothing is said about a member with new code or about a new member. -/
theorem OnlyGrows.settled {x : Build Member} (h : OnlyGrows P x) {d : MemberDraft}
    (hd : ¬d.IsCopy) : Settles P x (d.Settled S) :=
  h.mono fun _ _ _ _ _ =>
    ⟨fun m key access e => absurd ⟨m, key, access, e⟩ hd, fun e => absurd e hd⟩

variable (hP : Symbol.Named P)

include hP

theorem onlyGrows_text (s : String) : OnlyGrows P (Build.grow (.text s)) :=
  (settles_grow (Grow.enters_text (hP.text s))).onlyGrows

/-- A member with a new key. -/
theorem settles_member (access : Access) (key : MemberKey) {x : Build (List Attribute)}
    {Q : ImportSource → List Attribute → Prop} (hx : Settles P x fun G _ as _ => Q G as) :
    Settles P (do
      let name ← Build.grow (.text key.name)
      let descriptor ← Build.grow (.text key.descriptor)
      return Member.mk access name descriptor (← x)) fun G _ m _ =>
        m.access = access ∧ G.Denotes m.name (.text key.name) ∧
          G.Denotes m.descriptor (.text key.descriptor) ∧ Q G m.attributes := by
  refine ((settles_grow (Grow.enters_text (hP.text key.name))).bind fun i =>
    (settles_grow (Grow.enters_text (hP.text key.descriptor))).bind fun j =>
    hx.bind fun as => settles_pure (Member.mk access i j as)).mono ?_
  rintro G g _ _ ⟨i, _, hi, j, _, hj, as, _, has, rfl, -⟩
  exact ⟨rfl, hi, hj, has⟩

theorem settles_emitCode (access : Access) (descriptor : String) (code : List Command) :
    Settles P (emitCode access descriptor code) fun G _ a _ =>
      a.EmittedFrom P G code access descriptor := by
  have hemit : Settles P (Build.grow (Code.emit code access.isStatic descriptor))
      fun G _ body _ => body.EmittedFrom P G code access descriptor := by
    intro g body b hg h
    obtain ⟨g', rfl, hrun⟩ := grow_eq_ok.1 h
    exact ⟨g', rfl, Code.emit_grows hP hg hrun, fun G hG => ⟨g, g', hg, hrun, hG⟩⟩
  refine ((settles_grow (Grow.enters_text (hP.text "Code"))).bind fun name => hemit.bind fun body =>
    settles_pure (Attribute.mk name (.code body))).mono ?_
  rintro G g _ _ ⟨name, _, hname, body, _, hbody, rfl, -⟩
  exact ⟨name, body, rfl, hname, hbody⟩

variable (hS : S.Supplies P)

include hS

section ReplaceCode

variable {L : ImportSource → Attribute → Prop} {emitted : Build Attribute}
  (he : Settles P emitted fun G _ a _ => L G a)

include he

omit hP in
theorem settles_replaceCodeAfter (old done : List Attribute) (pending : Bool) :
    Settles P (replaceCodeAfter S emitted done pending old) fun G _ r _ =>
      ∃ new as, r.1 = done.reverse ++ as ∧ Attribute.Replaced S G old new as ∧
        (∀ a ∈ new, L G a) ∧ new.length + r.2.toNat = pending.toNat := by
  induction old generalizing done pending with
  | nil =>
    refine (settles_pure (done.reverse, pending)).mono ?_
    rintro G g _ _ ⟨rfl, -⟩
    exact ⟨[], [], (List.append_nil _).symm, ⟨[], [], rfl, .nil⟩, nofun, Nat.zero_add _⟩
  | cons a rest ih =>
    -- All attributes without code are treated alike, so this case is stated once.
    have hcopy (ha : a.body? = none) {f : Option Attribute → Build (List Attribute × Bool)}
        (hkept : ∀ a, f (some a) = replaceCodeAfter S emitted (a :: done) pending rest)
        (hleft : f none = replaceCodeAfter S emitted done pending rest) :
        Settles P (attribute? S none a >>= f) fun G _ r _ =>
          ∃ new as, r.1 = done.reverse ++ as ∧ Attribute.Replaced S G (a :: rest) new as ∧
            (∀ a ∈ new, L G a) ∧ new.length + r.2.toNat = pending.toNat := by
      have hnext (copy : Option Attribute) : Settles P (f copy) fun G _ r _ =>
          ∃ new as, r.1 = done.reverse ++ (copy.toList ++ as) ∧ Attribute.Replaced S G rest new as ∧
            (∀ a ∈ new, L G a) ∧ new.length + r.2.toNat = pending.toNat := by
        cases copy with
        | none => exact hleft ▸ ih done pending
        | some a' =>
          refine hkept a' ▸ (ih (a' :: done) pending).mono ?_
          rintro G g r g' ⟨new, as, hr, h⟩
          refine ⟨new, as, ?_, h⟩
          rw [hr, List.reverse_cons, List.append_assoc]
          rfl
      have hfix : FixesOffsets none none := trivial
      refine ((settles_attribute? hS hfix a).bind hnext).mono ?_
      rintro G g r g'' ⟨copy, g', hcopy, new, as, hr, hreplaced, hnew, hpending⟩
      obtain ⟨rfl, hout, -⟩ | ⟨a', rfl, hcopied, -⟩ := hcopy
      · exact ⟨new, as, hr, hreplaced.leftOut ha hout, hnew, hpending⟩
      · exact ⟨new, a' :: as, hr, hreplaced.copied ha hcopied, hnew, hpending⟩
    obtain ⟨i, p⟩ := a
    cases p with
    | code body =>
      rw [replaceCodeAfter]
      cases pending with
      | true =>
        refine (he.bind fun a => ih (a :: done) false).mono ?_
        rintro G g r g'' ⟨a, g', ha, new, as, hr, ⟨before, after, rfl, h⟩, -, hpending⟩
        -- The code is placed here, and nothing is pending in the rest.
        obtain ⟨hnone, hleft⟩ := Nat.add_eq_zero_iff.1 hpending
        rw [List.length_eq_zero_iff.1 hnone, List.append_nil] at hr
        refine ⟨[a], a :: (before ++ after), ?_, ⟨[], before ++ after, rfl, h⟩,
          List.forall_mem_singleton.2 ha, by rw [hleft]; rfl⟩
        rw [hr, List.reverse_cons, List.append_assoc]
        rfl
      | false => exact ih done false
    | _ => exact hcopy rfl (fun _ => rfl) rfl

omit hP in
/-- New code takes the place of the old, among copies of the other attributes. -/
theorem settles_replaceCode (old : List Attribute) :
    Settles P (replaceCode S emitted old) fun G _ as _ =>
      ∃ a, L G a ∧ Attribute.Replaced S G old [a] as := by
  have hfirst (r : List Attribute × Bool) : Settles P (do
      if r.2 then return (← emitted) :: r.1 else return r.1)
      fun G _ as _ => (r.2 = true ∧ ∃ a, L G a ∧ as = a :: r.1) ∨ r.2 = false ∧ as = r.1 := by
    obtain ⟨as, pending⟩ := r
    cases pending with
    | true =>
      refine (he.bind fun a => settles_pure (a :: as)).mono ?_
      rintro G g _ _ ⟨a, g', ha, rfl, -⟩
      exact .inl ⟨rfl, a, ha, rfl⟩
    | false => exact (settles_pure as).mono fun G g _ _ h => .inr ⟨rfl, h.1⟩
  refine ((settles_replaceCodeAfter hS he old [] true).bind hfirst).mono ?_
  rintro G g as g'' ⟨⟨_, pending⟩, g', ⟨new, done, rfl, ⟨before, after, rfl, h⟩, hnew, hpending⟩,
    ⟨rfl, a, ha, rfl⟩ | ⟨rfl, rfl⟩⟩
  · have hnone : new = [] := List.length_eq_zero_iff.1 (Nat.succ.inj hpending)
    subst hnone
    exact ⟨a, ha, [], before ++ after, by simp, h⟩
  · obtain ⟨a, rfl⟩ := List.length_eq_one_iff.1 hpending
    exact ⟨a, hnew a List.mem_cons_self, before, after, rfl, h⟩

end ReplaceCode

theorem settles_buildField (d : MemberDraft) : Settles P (buildField S d) (d.Settled S) := by
  cases d with
  | kept m key access code =>
    cases code with
    | none =>
      exact (settles_copyMember hS m (access.getD m.access)).mono fun _ _ _ _ h =>
        MemberDraft.settled_of_copy key access h
    | some code => exact (settles_copyMember hS m _).onlyGrows.settled (by rintro ⟨_, _, _, ⟨⟩⟩)
  | added key access code =>
    refine OnlyGrows.settled ?_ (by rintro ⟨_, _, _, ⟨⟩⟩)
    exact onlyGrows_bind (onlyGrows_text hP key.name) fun _ =>
      onlyGrows_bind (onlyGrows_text hP key.descriptor) fun _ => onlyGrows_pure _

theorem settles_buildMethod (d : MemberDraft) : Settles P (buildMethod S d) (d.Settled S) := by
  unfold buildMethod
  refine Settles.record ?_ _
  cases d with
  | kept m key access code =>
    cases code with
    | none =>
      exact (settles_copyMember hS m (access.getD m.access)).mono fun _ _ _ _ h =>
        MemberDraft.settled_of_copy key access h
    | some code =>
      refine OnlyGrows.settled ?_ (by rintro ⟨_, _, _, ⟨⟩⟩)
      exact onlyGrows_bind (onlyGrows_text hP key.name) fun _ =>
        onlyGrows_bind (onlyGrows_text hP key.descriptor) fun _ =>
        onlyGrows_bind (settles_replaceCode hS (settles_emitCode hP _ _ code)
          m.attributes).onlyGrows fun _ => onlyGrows_pure _
  | added key access code =>
    refine OnlyGrows.settled ?_ (by rintro ⟨_, _, _, ⟨⟩⟩)
    refine onlyGrows_bind (onlyGrows_text hP key.name) fun _ =>
      onlyGrows_bind (onlyGrows_text hP key.descriptor) fun _ => ?_
    cases code with
    | none => exact onlyGrows_pure _
    | some code =>
      exact onlyGrows_bind (settles_emitCode hP _ _ code).onlyGrows fun _ => onlyGrows_pure _

end Members

/-! ## Lists of members -/

/-- The draft of a member as it is written, with the flags that it has. -/
def MemberDraft.Retakes (m : Member) (d : MemberDraft) : Prop :=
  ∃ key access, d = .kept m.promote key access none ∧ access.getD m.access = m.access

/-- Where all members are copied, drafts of the copies are built as they are, out of `G`. -/
def MembersAgain (build : ImportSource → MemberDraft → Build Member) (ds : List MemberDraft)
    (G : ImportSource) (g : GrowingPool) (ms : List Member) (g' : GrowingPool) : Prop :=
  (∀ d ∈ ds, d.IsCopy) → ∀ ds', List.Forall₂ MemberDraft.Retakes ms ds' →
    ds'.mapM (build G) ⟨g, .off⟩ = .ok (ms.map Member.promote) ⟨g', .off⟩

theorem settles_members {P : Symbol → Prop} {S : ImportSource}
    {build : ImportSource → MemberDraft → Build Member}
    (hbuild : ∀ d, Settles P (build S d) (d.Settled S))
    (hcopy : ∀ G m key access g, build G (.kept m key access none) ⟨g, .off⟩ =
      copyMember G m (access.getD m.access) ⟨g, .off⟩) (ds : List MemberDraft) :
    Settles P (ds.mapM (build S)) fun G g ms g' =>
      List.Forall₂ (MemberDraft.Copied S G) ds ms ∧ MembersAgain build ds G g ms g' := by
  induction ds with
  | nil =>
    refine (settles_pure ([] : List Member)).mono ?_
    rintro G g _ _ ⟨rfl, rfl⟩
    refine ⟨.nil, fun _ ds' hds' => ?_⟩
    cases hds'
    rfl
  | cons d ds ih =>
    rw [List.mapM_cons]
    refine ((hbuild d).bind fun m => ih.bind fun ms => settles_pure (m :: ms)).mono ?_
    rintro G g _ _ ⟨m, g1, ⟨hm, rm⟩, ms, g2, ⟨hms, rms⟩, rfl, rfl⟩
    refine ⟨.cons hm hms, fun hcopies ds' hds' => ?_⟩
    obtain ⟨hd, hds⟩ := List.forall_mem_cons.1 hcopies
    cases hds' with
    | @cons _ d' _ ds' hd' hds' =>
      obtain ⟨key, access, rfl, ha⟩ := hd'
      have hfirst : build G (.kept m.promote key access none) ⟨g, .off⟩ =
          .ok m.promote ⟨g1, .off⟩ := by
        rw [hcopy, ← rm hd, ← ha]
        rfl
      rw [List.mapM_cons, bind_run hfirst, bind_run (rms hds ds' hds')]
      rfl

/-! ## Classes -/

namespace Draft

/-- What the copied members and attributes of a draft refer to. -/
def baseSource (d : Draft) : ImportSource := (d.base.map importSource).getD ⟨.empty, #[]⟩

def baseAttributes (d : Draft) : List Attribute := (d.base.map (·.attributes)).getD []

/-- The index of an optional class name. -/
def superRef : Option String → Build UInt16
  | some name => Build.grow (.classRef name)
  | none => pure 0

theorem assembleClass_eq (d : Draft) :
    d.assembleClass = (do
      Build.record (.building d.thisClass d.fields.length d.methods.length)
      let thisClass ← Build.grow (.classRef d.thisClass)
      let superClass ← superRef d.superClass
      let interfaces ← d.interfaces.mapM fun name => Build.grow (.classRef name)
      let fields ← d.fields.mapM (buildField d.baseSource)
      let methods ← d.methods.mapM (buildMethod d.baseSource)
      let attributes ← attributes d.baseSource d.baseAttributes
      let bootstrap ← buildBootstrap
      let b ← get
      return { minor := d.minor, major := d.major, pool := b.pool.pool, access := d.access,
               thisClass, superClass, interfaces, fields, methods,
               attributes := attributes ++ bootstrap }) := by
  unfold assembleClass baseSource baseAttributes
  cases d.superClass <;> cases d.base <;> rfl

/-- The table of bootstrap methods behind the attributes of a class, if there are any. -/
def BootstrapTail (G : ImportSource) (g : GrowingPool) (tail : List Attribute) : Prop :=
  if g.bootstrap.isEmpty then tail = []
  else ∃ name, G.Denotes name (.text "BootstrapMethods") ∧
    tail = [⟨name, .bootstrapMethods g.bootstrap.toList⟩]

/-- A draft `d'` of what was built from `d`: the same names, and every member as it is written. -/
structure Retakes (d' : Draft) (G : ImportSource) (d : Draft) (r : ClassFile) : Prop where
  thisClass : d'.thisClass = d.thisClass
  superClass : d'.superClass = d.superClass
  interfaces : d'.interfaces = d.interfaces
  source : d'.baseSource = G
  fields : List.Forall₂ MemberDraft.Retakes r.fields d'.fields
  methods : List.Forall₂ MemberDraft.Retakes r.methods d'.methods
  attributes : d'.baseAttributes = promoteAttributes r.attributes

/-- What a build of `d` from the pool `g` comes to. -/
structure Assembled (d : Draft) (G : ImportSource) (g : GrowingPool) (r : ClassFile)
    (g' : GrowingPool) : Prop where
  minor : r.minor = d.minor
  major : r.major = d.major
  access : r.access = d.access
  pool : r.pool = g'.pool
  thisClass : G.Denotes r.thisClass (.classRef d.thisClass)
  superClass : match d.superClass with
    | some name => G.Denotes r.superClass (.classRef name)
    | none => r.superClass = 0
  interfaces : List.Forall₂ (fun name i => G.Denotes i (.classRef name)) d.interfaces r.interfaces
  fields : List.Forall₂ (MemberDraft.Copied d.baseSource G) d.fields r.fields
  methods : List.Forall₂ (MemberDraft.Copied d.baseSource G) d.methods r.methods
  attributes : ∃ copies tail, Attribute.AllCopied d.baseSource G none d.baseAttributes copies ∧
    BootstrapTail G g' tail ∧ r.attributes = copies ++ tail
  again : (∀ m ∈ d.fields, m.IsCopy) → (∀ m ∈ d.methods, m.IsCopy) → ∀ d' : Draft,
    d'.Retakes G d r → d'.assembleClass ⟨g, .off⟩ =
      .ok { r.promote with minor := d'.minor, major := d'.major, access := d'.access } ⟨g', .off⟩

section Assembly

variable {P : Symbol → Prop}

theorem settles_superRef (hP : Symbol.Named P) (name? : Option String) :
    Settles P (superRef name?) fun G _ i _ => match name? with
      | some name => G.Denotes i (.classRef name)
      | none => i = 0 := by
  cases name? with
  | some name => exact settles_grow (Grow.enters_class hP name)
  | none => exact (settles_pure 0).mono fun _ _ _ _ h => h.1

theorem settles_interfaces (hP : Symbol.Named P) (names : List String) :
    Settles P (names.mapM fun name => Build.grow (.classRef name)) fun G _ is _ =>
      List.Forall₂ (fun name i => G.Denotes i (.classRef name)) names is :=
  Settles.forall₂ fun name _ => settles_grow (Grow.enters_class hP name)

/-- A text is no bootstrap method. -/
theorem bootstrap_of_text {s : String} {g g' : GrowingPool} {i : UInt16}
    (h : Grow.text s g = .ok i g') : g'.bootstrap = g.bootstrap := by
  obtain ⟨key, -, ⟨-, rfl⟩ | ⟨-, -, -, rfl⟩⟩ := Grow.add_eq_ok.1 h
  · rfl
  · rfl

theorem settles_buildBootstrap (hP : Symbol.Named P) :
    Settles P buildBootstrap fun G _ tail g' => BootstrapTail G g' tail := by
  intro g tail b hg h
  unfold buildBootstrap at h
  obtain ⟨_, _, hget, h⟩ := bind_eq_ok.1 h
  cases hget
  dsimp only at h
  cases hempty : g.bootstrap.isEmpty with
  | true =>
    rw [hempty] at h
    obtain ⟨rfl, rfl⟩ := pure_eq_ok.1 h
    exact ⟨g, rfl, .refl hg, fun G hG => (if_pos hempty).mpr rfl⟩
  | false =>
    rw [hempty] at h
    obtain ⟨name, b1, hname, h⟩ := bind_eq_ok.1 h
    obtain ⟨g1, rfl, htext⟩ := grow_eq_ok.1 hname
    obtain ⟨_, _, hget, h⟩ := bind_eq_ok.1 h
    cases hget
    obtain ⟨rfl, rfl⟩ := pure_eq_ok.1 h
    obtain ⟨grows, ht⟩ := Grow.enters_text (hP.text "BootstrapMethods") g name g1 hg htext
    refine ⟨g1, rfl, grows, fun G hG => ?_⟩
    have hempty' : ¬g1.bootstrap.isEmpty = true := by
      rw [bootstrap_of_text htext, hempty]
      exact Bool.false_ne_true
    exact (if_neg hempty').mpr ⟨name, ht.mono hG, rfl⟩

/-- The table of bootstrap methods is left out of a copy. -/
theorem filterMapM_tail {G H : ImportSource} {g : GrowingPool} {tail : List Attribute}
    (h : BootstrapTail G g tail) :
    tail.filterMapM (attribute? H none) = pure [] ∧ promoteAttributes tail = tail := by
  unfold BootstrapTail at h
  split at h
  · subst h
    exact ⟨rfl, rfl⟩
  · obtain ⟨name, -, rfl⟩ := h
    exact ⟨rfl, rfl⟩

theorem filterMapM_append {α β : Type} (f : α → Build (Option β)) (as bs : List α) :
    (as ++ bs).filterMapM f = (do return (← as.filterMapM f) ++ (← bs.filterMapM f)) := by
  induction as with
  | nil => simp
  | cons a as ih =>
    rw [List.cons_append, List.filterMapM_cons, List.filterMapM_cons, bind_assoc]
    congr
    funext r
    cases r <;> simp [ih]

/-- What is settled about the fields, about the methods and about the attributes is settled about
the class. -/
theorem settles_parts (hP : Symbol.Named P) {d : Draft} {F M : ImportSource → List Member → Prop}
    {A : ImportSource → List Attribute → Prop}
    (hfields : Settles P (d.fields.mapM (buildField d.baseSource)) fun G _ ms _ => F G ms)
    (hmethods : Settles P (d.methods.mapM (buildMethod d.baseSource)) fun G _ ms _ => M G ms)
    (hattributes : Settles P (attributes d.baseSource d.baseAttributes) fun G _ as _ => A G as) :
    Settles P d.assembleClass fun G _ r g' => F G r.fields ∧ M G r.methods ∧
      ∃ copies tail, A G copies ∧ BootstrapTail G g' tail ∧ r.attributes = copies ++ tail := by
  rw [assembleClass_eq]
  refine Settles.record ?_ _
  refine ((settles_grow (Grow.enters_class hP d.thisClass)).bind fun thisClass =>
    (settles_superRef hP d.superClass).bind fun superClass =>
    (settles_interfaces hP d.interfaces).bind fun interfaces =>
    hfields.bind fun fields => hmethods.bind fun methods => hattributes.bind fun copies =>
    (settles_buildBootstrap hP).bind fun tail => settles_get.bind fun b => settles_pure _).mono ?_
  rintro G g _ _ ⟨_, _, -, _, _, -, _, _, -, fields, _, hf, methods, _, hm, copies, _, ha, tail, _,
    ht, _, _, ⟨rfl, rfl⟩, rfl, rfl⟩
  exact ⟨hf, hm, copies, tail, ha, ht, rfl⟩

theorem settles_tables (hP : Symbol.Named P) {d : Draft} (hS : d.baseSource.Supplies P)
    {F M : ImportSource → List Member → Prop}
    (hfields : Settles P (d.fields.mapM (buildField d.baseSource)) fun G _ ms _ => F G ms)
    (hmethods : Settles P (d.methods.mapM (buildMethod d.baseSource)) fun G _ ms _ => M G ms) :
    Settles P d.assembleClass fun G _ r _ => F G r.fields ∧ M G r.methods := by
  have hattributes : OnlyGrows P (attributes d.baseSource d.baseAttributes) :=
    attributes_eq d.baseSource d.baseAttributes ▸
      (settles_attributes hS none none trivial d.baseAttributes).onlyGrows
  exact (settles_parts hP hfields hmethods hattributes).mono fun _ _ _ _ h => ⟨h.1, h.2.1⟩

theorem settles_assembleClass (hP : Symbol.Named P) {d : Draft} (hS : d.baseSource.Supplies P) :
    Settles P d.assembleClass (Assembled d) := by
  rw [assembleClass_eq]
  refine Settles.record ?_ _
  refine ((settles_grow (Grow.enters_class hP d.thisClass)).remember.bind fun thisClass =>
    (settles_superRef hP d.superClass).remember.bind fun superClass =>
    (settles_interfaces hP d.interfaces).remember.bind fun interfaces =>
    (settles_members (settles_buildField hP hS) (fun _ _ _ _ _ => rfl) d.fields).bind fun fields =>
    (settles_members (settles_buildMethod hP hS) (fun _ _ _ _ _ => rfl) d.methods).bind
      fun methods =>
    (attributes_eq d.baseSource d.baseAttributes ▸
      settles_attributes hS none none trivial d.baseAttributes).bind fun copies =>
    (settles_buildBootstrap hP).remember.bind fun tail =>
    settles_get.bind fun b => settles_pure _).mono ?_
  rintro G g _ _ ⟨thisClass, g1, ⟨hthis, rthis⟩, superClass, g2, ⟨hsuper, rsuper⟩, interfaces, g3,
    ⟨hinterfaces, rinterfaces⟩, fields, g4, ⟨hfields, rfields⟩, methods, g5, ⟨hmethods, rmethods⟩,
    copies, g6, ⟨hcopies, rcopies⟩, tail, g7, ⟨htail, rtail⟩, _, _, ⟨rfl, rfl⟩, rfl, rfl⟩
  refine ⟨rfl, rfl, rfl, rfl, hthis, hsuper, hinterfaces, hfields, hmethods,
    ⟨copies, tail, hcopies, htail, rfl⟩, fun hf hm d' h => ?_⟩
  obtain ⟨hleft, hpromote⟩ := filterMapM_tail (H := G) htail
  have rattributes : attributes G d'.baseAttributes ⟨g5, .off⟩ =
      .ok (promoteAttributes copies) ⟨g6, .off⟩ := by
    rw [attributes_eq, h.attributes, promoteAttributes_append, hpromote, filterMapM_append, hleft,
      bind_run rcopies, pure_bind, List.append_nil]
    rfl
  rw [assembleClass_eq, h.thisClass, h.superClass, h.interfaces, h.source]
  show (Build.grow (.classRef d.thisClass) >>= _ : Build ClassFile) ⟨g, .off⟩ = _
  rw [bind_run rthis, bind_run rsuper, bind_run rinterfaces, bind_run (rfields hf _ h.fields),
    bind_run (rmethods hm _ h.methods), bind_run rattributes, bind_run rtail]
  dsimp only [ClassFile.promote]
  rw [promoteAttributes_append, hpromote]
  rfl

end Assembly

/-! ## Builds -/

theorem build_eq_ok {d : Draft} {r : ClassFile} :
    d.build = .ok r ↔ d.failure = none ∧ ∃ b, d.assembleClass ⟨.empty, .off⟩ = .ok r b := by
  unfold build buildLogged
  cases d.failure with
  | some e => simp
  | none => cases d.assembleClass ⟨.empty, .off⟩ <;> simp

/-- The runs of which a build consists, where there is neither a superclass nor a field. -/
theorem build_of_runs {d : Draft} {i : UInt16} {is : List UInt16} {ms : List Member}
    {as tail : List Attribute} {b1 b2 b3 b4 b : Building}
    (hd : d.failure = none ∧ d.superClass = none ∧ d.fields = [])
    (hthis : Build.grow (.classRef d.thisClass) ⟨.empty, .off⟩ = .ok i b1)
    (hinterfaces : (d.interfaces.mapM fun name => Build.grow (.classRef name)) b1 = .ok is b2)
    (hmethods : d.methods.mapM (buildMethod d.baseSource) b2 = .ok ms b3)
    (hattributes : attributes d.baseSource d.baseAttributes b3 = .ok as b4)
    (htail : buildBootstrap b4 = .ok tail b) :
    d.build = .ok ⟨d.minor, d.major, b.pool.pool, d.access, i, 0, is, [], ms, as ++ tail⟩ := by
  obtain ⟨hfailure, hsuper, hfields⟩ := hd
  refine build_eq_ok.2 ⟨hfailure, b, ?_⟩
  rw [assembleClass_eq, hsuper, hfields]
  refine (bind_run rfl).trans ?_
  refine (bind_run hthis).trans ?_
  -- no superclass
  refine (bind_run rfl).trans ?_
  refine (bind_run hinterfaces).trans ?_
  -- no fields
  refine (bind_run rfl).trans ?_
  refine (bind_run hmethods).trans ?_
  refine (bind_run hattributes).trans ?_
  exact bind_run htail

theorem bootstrapMethods?_of_allCopied {S G : ImportSource} {moved : Option OffsetMap}
    {as copies : List Attribute} (h : Attribute.AllCopied S G moved as copies)
    (tail : List Attribute) :
    Attribute.bootstrapMethods? (copies ++ tail) = Attribute.bootstrapMethods? tail := by
  induction as generalizing copies with
  | nil =>
    cases h
    rfl
  | cons a as ih =>
    cases h with
    | leftOut _ h => exact ih h
    | copied ha h =>
      obtain ⟨-, hp⟩ := ha
      rw [← ih h]
      cases hp <;> rfl

/-- The pool that a class was built with is the one its members refer to. -/
theorem Assembled.importSource_eq {d : Draft} {G : ImportSource} {g g' : GrowingPool}
    {r : ClassFile} (h : d.Assembled G g r g') : importSource r = g'.source := by
  obtain ⟨copies, tail, hcopies, htail, hr⟩ := h.attributes
  have hmethods : r.bootstrapMethods = g'.bootstrap.toList := by
    rw [ClassFile.bootstrapMethods, hr, bootstrapMethods?_of_allCopied hcopies]
    unfold BootstrapTail at htail
    split at htail
    · rename_i hempty
      subst htail
      rw [Array.isEmpty_iff.1 hempty]
      rfl
    · obtain ⟨name, -, rfl⟩ := htail
      rfl
  rw [importSource, hmethods, h.pool]
  rfl

/-- Every entry of a pool that was read can be read again, and is valid. -/
theorem supplies_of_read {bytes : Bytes} {c : ClassFile} (h : ClassFile.read bytes = .ok c) :
    (importSource c).Supplies Symbol.IsValid := by
  obtain ⟨texts, codes, hvalid, pool, body, hp, -⟩ := ClassFile.read_eq_ok_iff.1 h
  have hsize := hp.isReadable.1
  refine ⟨fun i entry hi hu => hp.isReadable.get? hi hu, fun i t ht => ?_⟩
  exact ht.isValid (Nat.lt_succ_of_lt hsize) hvalid.pool hvalid.bootstrap

/-- What a successful build comes to, by the pool that it leaves, with whatever else is settled
about it. -/
theorem build_settled {P : Symbol → Prop} (hP : Symbol.Named P) {d : Draft}
    (hS : d.baseSource.Supplies P)
    {post : ImportSource → GrowingPool → ClassFile → GrowingPool → Prop}
    (hpost : Settles P d.assembleClass post) {r : ClassFile} (h : d.build = .ok r) :
    ∃ g, GrowingPool.empty.Grows P g ∧ importSource r = g.source ∧
      d.Assembled (importSource r) .empty r g ∧ post (importSource r) .empty r g := by
  obtain ⟨-, b, h⟩ := build_eq_ok.1 h
  obtain ⟨g, rfl, grows, hassembled⟩ :=
    settles_assembleClass hP hS .empty r b GrowingPool.inv_empty h
  obtain ⟨_, ⟨⟩, -, hsettled⟩ := hpost .empty r _ GrowingPool.inv_empty h
  have hsource := (hassembled g.source (le_refl _)).importSource_eq
  have hle : g.source ≤ importSource r := le_of_eq hsource.symm
  exact ⟨g, grows, hsource, hassembled _ hle, hsettled _ hle⟩

theorem build_spec {P : Symbol → Prop} (hP : Symbol.Named P) {d : Draft}
    (hS : d.baseSource.Supplies P) {r : ClassFile} (h : d.build = .ok r) :
    ∃ g, GrowingPool.empty.Grows P g ∧ importSource r = g.source ∧
      d.Assembled (importSource r) .empty r g := by
  obtain ⟨g, grows, hsource, hassembled, -⟩ :=
    build_settled hP hS (settles_assembleClass hP hS).onlyGrows h
  exact ⟨g, grows, hsource, hassembled⟩

end Draft

end JvmClass
