import JvmClass.Code.StackDepth
import JvmClass.Proofs.Codec.Reads

/-!
# Ways to fail

`FailsAs Q x` says that `x` succeeds or fails with an error that satisfies `Q`. Such a property
follows the ways computations are put together. Lookups in a pool fail in three ways only
(`Error.isLookup`); laying code out adds a few of its own.
-/

namespace JvmClass

/-- The error, if there is one, satisfies `Q`. -/
def FailsAs {α : Type} (Q : Error → Prop) (x : Except Error α) : Prop := ∀ e, x = .error e → Q e

section Combinators

variable {α β : Type} {Q : Error → Prop}

theorem failsAs_ok (a : α) : FailsAs Q (.ok a) := fun _ h => nomatch h

theorem failsAs_error {e : Error} (h : Q e) : FailsAs Q (.error e : Except Error α) := by
  rintro _ ⟨⟩
  exact h

theorem FailsAs.bind {x : Except Error α} {f : α → Except Error β} (hx : FailsAs Q x)
    (hf : ∀ a, FailsAs Q (f a)) : FailsAs Q (x >>= f) := by
  intro e he
  rcases exceptBind_eq_error.1 he with h | ⟨a, -, h⟩
  · exact hx e h
  · exact hf a e h

theorem failsAs_ite {p : Prop} [Decidable p] {x y : Except Error α} (hx : FailsAs Q x)
    (hy : FailsAs Q y) : FailsAs Q (if p then x else y) := by
  split
  · exact hx
  · exact hy

theorem failsAs_mapM {f : α → Except Error β} (hf : ∀ a, FailsAs Q (f a)) (as : List α) :
    FailsAs Q (as.mapM f) := by
  intro e he
  obtain ⟨a, -, ha⟩ := mapM_eq_error he
  exact hf a e ha

theorem FailsAs.imp {Q' : Error → Prop} {x : Except Error α} (hQ : ∀ e, Q e → Q' e)
    (hx : FailsAs Q x) : FailsAs Q' x := fun e he => hQ e (hx e he)

end Combinators

/-! ## Lookups -/

/-- There is no such entry in a pool, or it is of another kind or not a descriptor. -/
def Error.isLookup : Error → Bool
  | .malformedConstant .. | .unexpectedConstant .. | .invalidDescriptor _ => true
  | _ => false

/-- If this fails, it is as a lookup does. -/
abbrev LooksUp {α : Type} (x : Except Error α) : Prop := FailsAs (fun e => e.isLookup = true) x

section Lookups

variable {p : Pool}

theorem looksUp_get (index : UInt16) : LooksUp (p.get index) := by
  unfold Pool.get
  split
  · exact failsAs_ok _
  · exact failsAs_error rfl

theorem looksUp_text (index : UInt16) : LooksUp (p.text index) := by
  refine (looksUp_get index).bind fun c => ?_
  cases c with
  | utf8 s => exact failsAs_ok s
  | _ => exact failsAs_error rfl

theorem looksUp_className (index : UInt16) : LooksUp (p.className index) := by
  refine (looksUp_get index).bind fun c => ?_
  cases c with
  | classRef name => exact looksUp_text name
  | _ => exact failsAs_error rfl

theorem looksUp_nameAndType (index : UInt16) : LooksUp (p.nameAndType index) := by
  refine (looksUp_get index).bind fun c => ?_
  cases c with
  | nameAndType name descriptor =>
    exact (looksUp_text _).bind fun _ => (looksUp_text _).bind fun _ => failsAs_ok _
  | _ => exact failsAs_error rfl

theorem looksUp_memberName (index : UInt16) : LooksUp (p.memberName index) := by
  refine (looksUp_get index).bind fun c => ?_
  cases c with
  | fieldRef owner member | methodRef owner member | interfaceMethodRef owner member =>
    exact (looksUp_nameAndType member).bind fun _ =>
      (looksUp_className owner).bind fun _ => failsAs_ok _
  | _ => exact failsAs_error rfl

theorem looksUp_fieldType (s : String) : LooksUp (FieldType.parse s) := by
  unfold FieldType.parse
  split
  · exact failsAs_ok _
  · exact failsAs_error rfl

theorem looksUp_methodType (s : String) : LooksUp (MethodType.parse s) := by
  unfold MethodType.parse
  split
  · exact failsAs_ok _
  · exact failsAs_error rfl

theorem looksUp_stackEffect (i : Instruction) : LooksUp (Code.stackEffect p i) := by
  cases i with
  | field =>
    exact (looksUp_memberName _).bind fun _ => (looksUp_fieldType _).bind fun _ => failsAs_ok _
  | invoke | invokeInterface =>
    exact (looksUp_memberName _).bind fun _ => (looksUp_methodType _).bind fun _ => failsAs_ok _
  | invokeDynamic index =>
    refine (looksUp_get index).bind fun c => ?_
    cases c with
    | invokeDynamic =>
      exact (looksUp_nameAndType _).bind fun _ => (looksUp_methodType _).bind fun _ => failsAs_ok _
    | _ => exact failsAs_error rfl
  | _ => exact failsAs_ok _

end Lookups

/-! ## Laying out -/

section Layout

variable {Q : Error → Prop}

theorem failsAs_mapTargets {f : UInt32 → Except Error UInt32} (hf : ∀ t, FailsAs Q (f t))
    (i : Instruction) : FailsAs Q (i.mapTargets f) := by
  cases i with
  | branch o t => exact (hf t).bind fun _ => failsAs_ok _
  | tableSwitch d low high ts =>
    exact (hf d).bind fun _ => (failsAs_mapM hf ts).bind fun _ => failsAs_ok _
  | lookupSwitch d ps =>
    refine (hf d).bind fun _ => (failsAs_mapM (fun p => ?_) ps).bind fun _ => failsAs_ok _
    exact (hf p.2).bind fun _ => failsAs_ok _
  | _ => exact failsAs_ok _

/-- Code cannot be laid out if it is too long, if a target is not found, or if an instruction with
its targets placed cannot be written. -/
theorem failsAs_assemble {code : List Instruction} {resolve : UInt32 → Except Error Nat}
    (hlong : ∀ n, Q (.tooManyEntries .code n)) (hlost : ∀ o t, Q (.invalidBranchTarget o t))
    (hresolve : ∀ key, FailsAs Q (resolve key))
    (hencode : ∀ i ∈ code, ∀ (f : UInt32 → Except Error UInt32) (j : Instruction),
      i.mapTargets f = .ok j → ∀ o, FailsAs Q (j.encode o)) :
    FailsAs Q (Code.assemble code resolve) := by
  have hplace (o : Nat) (key : UInt32) :
      FailsAs Q (Code.placeTarget (Code.offsets code) code.length resolve o key) :=
    (hresolve key).bind fun _ => failsAs_ite (failsAs_ok _) (failsAs_error (hlost _ _))
  have hrest : FailsAs Q (do
      let placed ← (code.zip (Code.offsets code).toList).mapM fun x =>
        x.1.mapTargets (Code.placeTarget (Code.offsets code) code.length resolve x.2)
      let bytes ← concatM (fun x => Instruction.encode x.2 x.1)
        (placed.zip (Code.offsets code).toList)
      return (⟨bytes, Code.offsets code, placed⟩ : Code.Assembled)) := by
    intro e he
    rcases exceptBind_eq_error.1 he with he | ⟨placed, hplaced, he⟩
    · exact failsAs_mapM (fun _ => failsAs_mapTargets (hplace _) _) _ e he
    refine FailsAs.bind (fun e he => ?_) (fun _ => failsAs_ok _) e he
    obtain ⟨⟨j, o⟩, hj, he⟩ := concatM_eq_error he
    obtain ⟨⟨i, o'⟩, hi, hij⟩ :=
      exists_of_forall₂ (mapM_eq_ok_iff.1 hplaced) j (List.of_mem_zip hj).1
    exact hencode i (List.of_mem_zip hi).1 _ j hij o e he
  unfold Code.assemble
  dsimp only
  split
  · exact (failsAs_error (hlong _)).bind fun _ => hrest
  · exact hrest

end Layout

end JvmClass
