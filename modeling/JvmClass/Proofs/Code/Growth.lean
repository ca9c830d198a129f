import JvmClass.Code.Emission
import JvmClass.Proofs.Pool.Import
import Mathlib.Data.List.Forall2

/-!
# Emitted code and the pool

Commands enter their operands into the pool and do nothing else to it: what was there stays, every
new entry stands for what the command names, and no bootstrap method is added. So code that is
emitted between copies does not disturb them.
-/

namespace JvmClass

/-- What a name and a descriptor stand for. -/
def Symbol.nameAndType (name descriptor : String) : Symbol :=
  .node (.nameAndType 0 0) [.text name, .text descriptor]

/-- What a class name stands for. -/
def Symbol.classRef (name : String) : Symbol := .node (.classRef 0) [.text name]

/-- The property `P` holds of all that is entered by name. -/
structure Symbol.Named (P : Symbol → Prop) : Prop where
  leaf : ∀ c : Constant, c.IsReadable → c.bootstrap? = none → c.references = [] →
    P (.node c.head [])
  classRef : ∀ name, P (.classRef name)
  stringRef : ∀ s, P (.node (.stringRef 0) [.text s])
  nameAndType : ∀ name descriptor, P (.nameAndType name descriptor)
  member : ∀ head, head = .fieldRef 0 0 ∨ head = .methodRef 0 0 ∨ head = .interfaceMethodRef 0 0 →
    ∀ owner name descriptor, P (.node head [.classRef owner, .nameAndType name descriptor])

theorem Symbol.Named.text {P : Symbol → Prop} (h : Named P) (s : String) : P (.text s) :=
  h.leaf (.utf8 s) trivial rfl rfl

namespace Grow

/-- A request that only grows the pool, and hands out an index that stands for `t`. -/
def Enters (P : Symbol → Prop) (x : Grow UInt16) (t : Symbol) : Prop :=
  ∀ g i g', g.Inv P → x g = .ok i g' → g.Grows P g' ∧ g'.source.Denotes i t

section Enters

variable {P : Symbol → Prop}

/-- An entry whose references are there. -/
theorem add_denotes {c : Constant} {ts : List Symbol} {g g' : GrowingPool} {i : UInt16}
    (hg : g.Inv P) (hr : c.IsReadable) (hb : c.bootstrap? = none)
    (hrefs : List.Forall₂ g.source.Denotes c.references ts) (hp : P (.node c.head ts))
    (h : add c g = .ok i g') : g.Grows P g' ∧ g'.source.Denotes i (.node c.head ts) := by
  obtain ⟨depth, hparts⟩ := ImportSource.exists_mapM_symbol? hrefs
  have hs : g.source.symbolOf? (g.source.symbol? depth) c = some (.node c.head ts) :=
    ImportSource.symbolOf?_plain (Constant.isUnusable_of_isReadable hr) hb hparts
  obtain ⟨grows, -, ht⟩ := add_spec hg hr hs hp h
  exact ⟨grows, depth + 1, ht⟩

/-- An entry without references. -/
theorem enters_leaf {c : Constant} (hr : c.IsReadable) (hb : c.bootstrap? = none)
    (hrefs : c.references = []) (hp : P (.node c.head [])) :
    Enters P (add c) (.node c.head []) := by
  intro g i g' hg h
  exact add_denotes hg hr hb (by rw [hrefs]; exact .nil) hp h

/-- An entry that refers to another. -/
theorem Enters.single {x : Grow UInt16} {t : Symbol} (hx : Enters P x t) {entry : UInt16 → Constant}
    {head : Constant} (he : ∀ i, (entry i).IsReadable ∧ (entry i).bootstrap? = none ∧
      (entry i).references = [i] ∧ (entry i).head = head) (hp : P (.node head [t])) :
    Enters P (do add (entry (← x))) (.node head [t]) := by
  intro g i g' hg h
  obtain ⟨a, g1, ha, h⟩ := bind_eq_ok.1 h
  obtain ⟨grows1, ht⟩ := hx g a g1 hg ha
  obtain ⟨hr, hb, hrefs, hhead⟩ := he a
  rw [← hhead] at hp ⊢
  obtain ⟨grows2, hi⟩ := add_denotes grows1.inv hr hb (by rw [hrefs]; exact .cons ht .nil) hp h
  exact ⟨grows1.trans grows2, hi⟩

/-- An entry that refers to two others. -/
theorem Enters.pair {x y : Grow UInt16} {t u : Symbol} (hx : Enters P x t) (hy : Enters P y u)
    {entry : UInt16 → UInt16 → Constant} {head : Constant}
    (he : ∀ i j, (entry i j).IsReadable ∧ (entry i j).bootstrap? = none ∧
      (entry i j).references = [i, j] ∧ (entry i j).head = head) (hp : P (.node head [t, u])) :
    Enters P (do
      let a ← x
      let b ← y
      add (entry a b)) (.node head [t, u]) := by
  intro g i g' hg h
  obtain ⟨a, g1, ha, h⟩ := bind_eq_ok.1 h
  obtain ⟨b, g2, hb, h⟩ := bind_eq_ok.1 h
  obtain ⟨grows1, ht⟩ := hx g a g1 hg ha
  obtain ⟨grows2, hu⟩ := hy g1 b g2 grows1.inv hb
  obtain ⟨hr, hboot, hrefs, hhead⟩ := he a b
  rw [← hhead] at hp ⊢
  obtain ⟨grows3, hi⟩ := add_denotes grows2.inv hr hboot
    (by rw [hrefs]; exact .cons (ht.mono grows2.le) (.cons hu .nil)) hp h
  exact ⟨grows1.trans (grows2.trans grows3), hi⟩

theorem enters_text {s : String} (hp : P (.text s)) : Enters P (text s) (.text s) :=
  enters_leaf trivial rfl rfl hp

theorem enters_classRef {name : String} (hp : P (.text name)) (hc : P (.classRef name)) :
    Enters P (classRef name) (.classRef name) :=
  (enters_text hp).single (fun _ => ⟨trivial, rfl, rfl, rfl⟩) hc

variable (hP : Symbol.Named P)

include hP

theorem enters_stringRef (s : String) :
    Enters P (stringRef s) (.node (.stringRef 0) [.text s]) :=
  (enters_text (hP.text s)).single (fun _ => ⟨trivial, rfl, rfl, rfl⟩) (hP.stringRef s)

theorem enters_nameAndType (name descriptor : String) :
    Enters P (nameAndType name descriptor) (.nameAndType name descriptor) :=
  (enters_text (hP.text name)).pair (enters_text (hP.text descriptor))
    (fun _ _ => ⟨trivial, rfl, rfl, rfl⟩) (hP.nameAndType name descriptor)

theorem enters_class (name : String) : Enters P (classRef name) (.classRef name) :=
  enters_classRef (hP.text name) (hP.classRef name)

theorem enters_fieldRef (m : MemberName) :
    Enters P (fieldRef m)
      (.node (.fieldRef 0 0) [.classRef m.owner, .nameAndType m.name m.descriptor]) :=
  (enters_class hP m.owner).pair (enters_nameAndType hP m.name m.descriptor)
    (fun _ _ => ⟨trivial, rfl, rfl, rfl⟩) (hP.member _ (.inl rfl) _ _ _)

theorem enters_methodRef (m : MemberName) :
    Enters P (methodRef m)
      (.node (.methodRef 0 0) [.classRef m.owner, .nameAndType m.name m.descriptor]) :=
  (enters_class hP m.owner).pair (enters_nameAndType hP m.name m.descriptor)
    (fun _ _ => ⟨trivial, rfl, rfl, rfl⟩) (hP.member _ (.inr (.inl rfl)) _ _ _)

theorem enters_interfaceMethodRef (m : MemberName) :
    Enters P (interfaceMethodRef m)
      (.node (.interfaceMethodRef 0 0) [.classRef m.owner, .nameAndType m.name m.descriptor]) :=
  (enters_class hP m.owner).pair (enters_nameAndType hP m.name m.descriptor)
    (fun _ _ => ⟨trivial, rfl, rfl, rfl⟩) (hP.member _ (.inr (.inr rfl)) _ _ _)

end Enters

end Grow

namespace Code.Emit

/-- A step of an emission that only grows the pool. -/
def Keeps {α : Type} (P : Symbol → Prop) (x : Emit α) : Prop :=
  ∀ e y e', e.pool.Inv P → x e = .ok y e' → e.pool.Grows P e'.pool

section Steps

variable {α β : Type} {P : Symbol → Prop}

theorem keeps_pure (y : α) : Keeps P (pure y) := by
  intro e z e' he h
  obtain ⟨-, rfl⟩ := pure_eq_ok.1 h
  exact .refl he

theorem Keeps.bind {x : Emit α} {f : α → Emit β} (hx : Keeps P x) (hf : ∀ y, Keeps P (f y)) :
    Keeps P (x >>= f) := by
  intro e z e' he h
  obtain ⟨y, e1, h1, h2⟩ := bind_eq_ok.1 h
  have grows := hx e y e1 he h1
  exact grows.trans (hf y e1 z e' grows.inv h2)

theorem keeps_ofExcept (x : Except Error α) : Keeps P (ofExcept x) := by
  intro e z e' he h
  obtain ⟨-, rfl⟩ := ofExcept_eq_ok.1 h
  exact .refl he

theorem keeps_modify {f : Emission → Emission} (h : ∀ e, (f e).pool = e.pool) :
    Keeps P (modify f) := by
  intro e z e' he hm
  cases hm
  rw [h]
  exact .refl he

theorem grow_eq_ok {x : Grow α} {e e' : Emission} {a : α} :
    grow x e = .ok a e' ↔ ∃ pool, x e.pool = .ok a pool ∧ e' = { e with pool := pool } := by
  unfold grow
  cases hx : x e.pool with
  | ok b pool =>
    simp only [hx, EStateM.Result.ok.injEq]
    constructor
    · rintro ⟨rfl, rfl⟩
      exact ⟨pool, ⟨rfl, rfl⟩, rfl⟩
    · rintro ⟨_, ⟨rfl, rfl⟩, rfl⟩
      exact ⟨rfl, rfl⟩
  | error err pool => simp [hx]

/-- A request grows the pool and leaves the instructions alone. -/
theorem grow_spec {x : Grow UInt16} {t : Symbol} (hx : Grow.Enters P x t) {e e' : Emission}
    {i : UInt16} (he : e.pool.Inv P) (h : grow x e = .ok i e') :
    e.pool.Grows P e'.pool ∧ e'.pool.source.Denotes i t ∧ e'.instructions = e.instructions := by
  obtain ⟨pool, hpool, rfl⟩ := grow_eq_ok.1 h
  obtain ⟨grows, ht⟩ := hx e.pool i pool he hpool
  exact ⟨grows, ht, rfl⟩

theorem keeps_grow {x : Grow UInt16} {t : Symbol} (hx : Grow.Enters P x t) : Keeps P (grow x) :=
  fun _ _ _ he h => (grow_spec hx he h).1

theorem keeps_instruction (i : Instruction) : Keeps P (instruction i) :=
  keeps_modify fun _ => rfl

theorem keeps_forM {f : α → Emit Unit} (h : ∀ a, Keeps P (f a)) (as : List α) :
    Keeps P (as.forM f) := by
  induction as with
  | nil => exact keeps_pure ()
  | cons a as ih => exact (h a).bind fun _ => ih

theorem keeps_loadConstant (i : UInt16) : Keeps P (loadConstant i) := keeps_instruction _

end Steps

section Commands

variable {P : Symbol → Prop} (hP : Symbol.Named P)

include hP

theorem enters_constant (c : Constant) (hr : c.IsReadable) (hb : c.bootstrap? = none)
    (hrefs : c.references = []) : Grow.Enters P (Grow.add c) (.node c.head []) :=
  Grow.enters_leaf hr hb hrefs (hP.leaf c hr hb hrefs)

theorem keeps_pushInt (i : Int32) : Keeps P (pushInt i) := by
  unfold pushInt
  split
  · exact keeps_instruction _
  · split
    · exact keeps_instruction _
    · split
      · exact keeps_instruction _
      · exact (keeps_grow (enters_constant hP (.integer i) trivial rfl rfl)).bind keeps_loadConstant

theorem keeps_command (c : Command) : Keeps P (command c) := by
  cases c with
  | op | load | store | increment | newArray | branch | lookupSwitch => exact keeps_instruction _
  | newLabel | bind | lineNumber => exact keeps_modify fun _ => rfl
  | pushInt i => exact keeps_pushInt hP i
  | loadInt i =>
    exact (keeps_grow (enters_constant hP (.integer i) trivial rfl rfl)).bind keeps_loadConstant
  | loadFloat bits =>
    exact (keeps_grow (enters_constant hP (.float bits) trivial rfl rfl)).bind keeps_loadConstant
  | loadLong i =>
    exact (keeps_grow (enters_constant hP (.long i) trivial rfl rfl)).bind fun _ =>
      keeps_instruction _
  | loadDouble bits =>
    exact (keeps_grow (enters_constant hP (.double bits) trivial rfl rfl)).bind fun _ =>
      keeps_instruction _
  | loadString s => exact (keeps_grow (Grow.enters_stringRef hP s)).bind keeps_loadConstant
  | loadClass name => exact (keeps_grow (Grow.enters_class hP name)).bind keeps_loadConstant
  | field access m =>
    exact (keeps_grow (Grow.enters_fieldRef hP m)).bind fun _ => keeps_instruction _
  | call kind m =>
    exact (keeps_grow (Grow.enters_methodRef hP m)).bind fun _ => keeps_instruction _
  | callInterface m =>
    exact (keeps_ofExcept _).bind fun _ =>
      (keeps_grow (Grow.enters_interfaceMethodRef hP m)).bind fun _ =>
      keeps_instruction _
  | useClass use name =>
    exact (keeps_grow (Grow.enters_class hP name)).bind fun _ => keeps_instruction _
  | tableSwitch low default targets =>
    rw [command]
    split
    · exact keeps_instruction _
    · intro e y e' _ h
      exact absurd h throw_ne_ok
  | localVariable slot name descriptor start stop =>
    exact (keeps_grow (Grow.enters_text (hP.text name))).bind fun _ =>
      (keeps_grow (Grow.enters_text (hP.text descriptor))).bind fun _ => keeps_modify fun _ => rfl
  | handler start stop handler catchType =>
    cases catchType with
    | some name =>
      exact (keeps_grow (Grow.enters_class hP name)).bind fun _ => keeps_modify fun _ => rfl
    | none => exact (keeps_pure _).bind fun _ => keeps_modify fun _ => rfl

theorem keeps_tableAttribute {α : Type} (name : String) (payload : List α → Payload)
    (items : List α) : Keeps P (tableAttribute name payload items) := by
  unfold tableAttribute
  split
  · exact keeps_pure _
  · exact (keeps_grow (Grow.enters_text (hP.text name))).bind fun _ => keeps_pure _

theorem keeps_finish (isStatic : Bool) (descriptor : String) :
    Keeps P (finish isStatic descriptor) := by
  intro e y e' he h
  obtain ⟨_, _, hget, h⟩ := bind_eq_ok.1 h
  cases hget
  refine Keeps.bind (keeps_ofExcept _) (fun assembled => ?_) e y e' he h
  refine (keeps_ofExcept _).bind fun handlers => ?_
  refine (keeps_ofExcept _).bind fun type => ?_
  refine (keeps_ofExcept _).bind fun maxima => ?_
  refine (keeps_tableAttribute hP _ _ _).bind fun lines => ?_
  refine (keeps_ofExcept _).bind fun rows => ?_
  refine (keeps_tableAttribute hP _ _ _).bind fun locals => ?_
  exact keeps_pure _

end Commands

end Code.Emit

namespace Code

open Emit

variable {commands : List Command} {isStatic : Bool} {descriptor : String} {g g' : GrowingPool}

theorem emit_eq_ok {body : CodeBody} : emit commands isStatic descriptor g = .ok body g' ↔
    ∃ e e', commands.forM command (.start g) = .ok () e ∧
      finish isStatic descriptor e = .ok body e' ∧ g' = e'.pool := by
  unfold emit
  constructor
  · intro h
    split at h
    · rename_i hrun
      cases h
      obtain ⟨⟨⟩, e, hcommands, hfinish⟩ := bind_eq_ok.1 hrun
      exact ⟨e, _, hcommands, hfinish, rfl⟩
    · cases h
  · rintro ⟨e, e', hcommands, hfinish, rfl⟩
    rw [bind_run hcommands, hfinish]

theorem emit_eq_error {err : Error} : emit commands isStatic descriptor g = .error err g' ↔
    ∃ e', g' = e'.pool ∧ (commands.forM command (.start g) = .error err e' ∨
      ∃ e, commands.forM command (.start g) = .ok () e ∧
        finish isStatic descriptor e = .error err e') := by
  unfold emit
  constructor
  · intro h
    split at h
    · cases h
    · rename_i hrun
      cases h
      refine ⟨_, rfl, ?_⟩
      rcases bind_eq_error.1 hrun with hcommands | ⟨⟨⟩, e, hcommands, hfinish⟩
      · exact .inl hcommands
      · exact .inr ⟨e, hcommands, hfinish⟩
  · rintro ⟨e', rfl, hcommands | ⟨e, hcommands, hfinish⟩⟩
    · rw [bind_eq_error.2 (.inl hcommands)]
    · rw [bind_run hcommands, hfinish]

/-- Emitted code only grows the pool. -/
theorem emit_grows {P : Symbol → Prop} (hP : Symbol.Named P) {body : CodeBody} (hg : g.Inv P)
    (h : emit commands isStatic descriptor g = .ok body g') : g.Grows P g' := by
  obtain ⟨e, e', hcommands, hfinish, rfl⟩ := emit_eq_ok.1 h
  have grows := keeps_forM (keeps_command hP) commands _ _ _ hg hcommands
  exact grows.trans (keeps_finish hP isStatic descriptor _ _ _ grows.inv hfinish)

end Code

end JvmClass
