import JvmClass.Proofs.Pool.Import
import JvmClass.Proofs.Relocation.Copied

/-!
# Runs of a relocation

A relocation that succeeds makes a copy, in whatever its pool becomes later. And the copy settles
it: relocating the copy out of that pool, at the same point of the construction, asks for the same
entries in the same order, and returns the copy as it is. `Settles` states both of a run, since
the second needs what the first says about every step on the way.
-/

namespace JvmClass

open Relocation

/-- A successful run, with no log, only grows the pool `g` to some `g'`; and whatever pool `G` that
becomes, `post G g` holds of the result and `g'`. -/
def Settles {α : Type} (P : Symbol → Prop) (x : Build α)
    (post : ImportSource → GrowingPool → α → GrowingPool → Prop) : Prop :=
  ∀ g y b, g.Inv P → x ⟨g, .off⟩ = .ok y b →
    ∃ g', b = ⟨g', .off⟩ ∧ g.Grows P g' ∧ ∀ G, g'.source ≤ G → post G g y g'

/-- The result is a copy, and relocating it from `G` is the same run. -/
def Again {α β : Type} (R : ImportSource → α → β → Prop) (again : ImportSource → β → Build β)
    (x : α) (G : ImportSource) (g : GrowingPool) (y : β) (g' : GrowingPool) : Prop :=
  R G x y ∧ again G y ⟨g, .off⟩ = .ok y ⟨g', .off⟩

section Requests

variable {P : Symbol → Prop} {S : ImportSource}

theorem grow_run {α : Type} (x : Grow α) (g : GrowingPool) (log : Log) :
    Build.grow x ⟨g, log⟩ = match x g with
      | .ok a g' => .ok a ⟨g', log⟩
      | .error e g' => .error e ⟨g', log⟩ :=
  rfl

theorem grow_eq_ok {α : Type} {x : Grow α} {g : GrowingPool} {y : α} {b : Building} :
    Build.grow x ⟨g, .off⟩ = .ok y b ↔ ∃ g', b = ⟨g', .off⟩ ∧ x g = .ok y g' := by
  rw [grow_run]
  cases x g with
  | ok a g1 =>
    constructor
    · intro h
      cases h
      exact ⟨g1, rfl, rfl⟩
    · rintro ⟨g', rfl, h⟩
      cases h
      rfl
  | error e g1 => simp

theorem settles_pure {α : Type} (y : α) :
    Settles P (pure y) fun _ g z g' => z = y ∧ g' = g := by
  intro g z b hg h
  obtain ⟨rfl, rfl⟩ := pure_eq_ok.1 h
  exact ⟨g, rfl, .refl hg, fun _ _ => ⟨rfl, rfl⟩⟩

theorem settles_ofExcept {α : Type} (x : Except Error α) :
    Settles P (ofExcept x) fun _ g z g' => x = .ok z ∧ g' = g := by
  intro g z b hg h
  obtain ⟨hx, rfl⟩ := ofExcept_eq_ok.1 h
  exact ⟨g, rfl, .refl hg, fun _ _ => ⟨hx, rfl⟩⟩

theorem settles_index (hS : S.Supplies P) (i : UInt16) :
    Settles P (index S i) (Again (fun G i j => SameSymbol S i G j) index i) := by
  intro g j b hg h
  obtain ⟨g', rfl, hj⟩ := grow_eq_ok.1 h
  obtain ⟨grows, hG⟩ := Grow.importEntry_spec hS hg hj
  refine ⟨g', rfl, grows, fun G hle => ?_⟩
  obtain ⟨same, again⟩ := hG G hle
  exact ⟨same, grow_eq_ok.2 ⟨g', rfl, again⟩⟩

theorem settles_optional (hS : S.Supplies P) (i : UInt16) :
    Settles P (optional S i) (Again (fun G i j => SameOptional S i G j) optional i) := by
  intro g j b hg h
  obtain ⟨g', rfl, hj⟩ := grow_eq_ok.1 h
  obtain ⟨grows, hG⟩ := Grow.importOptional_spec hS hg hj
  refine ⟨g', rfl, grows, fun G hle => ?_⟩
  obtain ⟨same, again⟩ := hG G hle
  exact ⟨same, grow_eq_ok.2 ⟨g', rfl, again⟩⟩

end Requests

/-! ## Composition -/

section Composition

variable {α β γ δ : Type} {P : Symbol → Prop}

section Bind

variable {x : Build α} {f : α → Build β}
  {post : ImportSource → GrowingPool → α → GrowingPool → Prop}
  {post' : α → ImportSource → GrowingPool → β → GrowingPool → Prop} (hx : Settles P x post)

include hx

/-- One request after the other. The second starts from the pool the first left, and what the pool
becomes after both is also something it becomes after the first. -/
theorem Settles.bindOn (hf : ∀ y G g g', post G g y g' → Settles P (f y) (post' y)) :
    Settles P (x >>= f) fun G g z g'' => ∃ y g', post G g y g' ∧ post' y G g' z g'' := by
  intro g z b hg h
  obtain ⟨y, b1, h1, h2⟩ := bind_eq_ok.1 h
  obtain ⟨g1, rfl, grows1, post1⟩ := hx g y b1 hg h1
  have hy := hf y g1.source g g1 (post1 g1.source (le_refl _))
  obtain ⟨g2, rfl, grows2, post2⟩ := hy g1 z b grows1.inv h2
  exact ⟨g2, rfl, grows1.trans grows2, fun G hG =>
    ⟨y, g1, post1 G (le_trans grows2.le hG), post2 G hG⟩⟩

theorem Settles.bind (hf : ∀ y, Settles P (f y) (post' y)) :
    Settles P (x >>= f) fun G g z g'' => ∃ y g', post G g y g' ∧ post' y G g' z g'' :=
  hx.bindOn fun y _ _ _ _ => hf y

end Bind

theorem Settles.mono {x : Build α}
    {post post' : ImportSource → GrowingPool → α → GrowingPool → Prop}
    (h : Settles P x post) (imp : ∀ G g y g', post G g y g' → post' G g y g') :
    Settles P x post' := by
  intro g y b hg hx
  obtain ⟨g', rfl, grows, hpost⟩ := h g y b hg hx
  exact ⟨g', rfl, grows, fun G hG => imp G g y g' (hpost G hG)⟩

/-- One copy inside something else. -/
theorem Settles.wrap {x : Build α} {a : γ} {R : ImportSource → γ → α → Prop}
    {again : ImportSource → α → Build α} (h : Settles P x (Again R again a)) (make : α → β)
    {b : δ} {R' : ImportSource → δ → β → Prop} {again' : ImportSource → β → Build β}
    (hR : ∀ G y, R G a y → R' G b (make y))
    (hagain : ∀ G y, again' G (make y) = (do return make (← again G y))) :
    Settles P (do return make (← x)) (Again R' again' b) := by
  refine (h.bind fun y => settles_pure (make y)).mono ?_
  rintro G g z g'' ⟨y, g', ⟨hr, hy⟩, rfl, rfl⟩
  refine ⟨hR G y hr, ?_⟩
  rw [hagain, bind_run hy]
  rfl

/-- What is settled about each item of a list, in order. -/
theorem Settles.forall₂ {f : α → Build β} {Q : ImportSource → α → β → Prop} {xs : List α}
    (h : ∀ x ∈ xs, Settles P (f x) fun G _ y _ => Q G x y) :
    Settles P (xs.mapM f) fun G _ ys _ => List.Forall₂ (Q G) xs ys := by
  induction xs with
  | nil =>
    refine (settles_pure ([] : List β)).mono ?_
    rintro G g _ _ ⟨rfl, -⟩
    exact .nil
  | cons x xs ih =>
    obtain ⟨hx, hxs⟩ := List.forall_mem_cons.1 h
    rw [List.mapM_cons]
    refine (hx.bind fun y => (ih hxs).bind fun ys => settles_pure (y :: ys)).mono ?_
    rintro G g _ _ ⟨y, _, hy, ys, _, hys, rfl, -⟩
    exact .cons hy hys

theorem Settles.all {f : α → Build β} {Q : ImportSource → β → Prop} {xs : List α}
    (h : ∀ x ∈ xs, Settles P (f x) fun G _ y _ => Q G y) :
    Settles P (xs.mapM f) fun G _ ys _ => ∀ y ∈ ys, Q G y := by
  refine (Settles.forall₂ h).mono fun G g ys g' hys y hy => ?_
  obtain ⟨x, -, hq⟩ := exists_of_forall₂ hys y hy
  exact hq

section Lists

variable {f : α → Build β} {R : ImportSource → α → β → Prop} {again : ImportSource → β → Build β}

theorem Settles.mapM_cons {x : α} {xs : List α} (hx : Settles P (f x) (Again R again x))
    (hxs : Settles P (xs.mapM f)
      (Again (fun G => List.Forall₂ (R G)) (fun G ys => ys.mapM (again G)) xs)) :
    Settles P ((x :: xs).mapM f)
      (Again (fun G => List.Forall₂ (R G)) (fun G ys => ys.mapM (again G)) (x :: xs)) := by
  rw [List.mapM_cons]
  refine (hx.bind fun y => hxs.bind fun ys => settles_pure (y :: ys)).mono ?_
  rintro G g _ _ ⟨y, g1, ⟨hr, hy⟩, ys, g2, ⟨hrs, hys⟩, rfl, rfl⟩
  refine ⟨.cons hr hrs, ?_⟩
  show (y :: ys).mapM (again G) _ = _
  rw [List.mapM_cons, bind_run hy, bind_run hys]
  rfl

theorem settles_mapM_nil :
    Settles P ([].mapM f)
      (Again (fun G => List.Forall₂ (R G)) (fun G ys => ys.mapM (again G)) []) := by
  refine (settles_pure ([] : List β)).mono ?_
  rintro G g _ _ ⟨rfl, rfl⟩
  exact ⟨.nil, rfl⟩

theorem Settles.mapM (h : ∀ x, Settles P (f x) (Again R again x)) (xs : List α) :
    Settles P (xs.mapM f)
      (Again (fun G => List.Forall₂ (R G)) (fun G ys => ys.mapM (again G)) xs) := by
  induction xs with
  | nil => exact settles_mapM_nil
  | cons x xs ih => exact (h x).mapM_cons ih

end Lists

end Composition

/-! ## Annotations -/

namespace Relocation

/-- An element of an annotation with its name and value relocated. -/
def element (S : ImportSource) : Element → Build Element
  | ⟨name, v⟩ => do
    let name ← index S name
    return ⟨name, ← value S v⟩

theorem valuesAfter_eq (S : ImportSource) (done vs : List ElementValue) :
    valuesAfter S done vs = (do return done.reverse ++ (← vs.mapM (value S))) := by
  induction vs generalizing done with
  | nil => simp [valuesAfter]
  | cons v rest ih => simp [valuesAfter, ih]

theorem elementsAfter_eq (S : ImportSource) (done es : List Element) :
    elementsAfter S done es = (do return done.reverse ++ (← es.mapM (element S))) := by
  induction es generalizing done with
  | nil => simp [elementsAfter]
  | cons e rest ih =>
    obtain ⟨name, v⟩ := e
    simp [elementsAfter, element, ih]

theorem value_array (S : ImportSource) (vs : List ElementValue) :
    value S (.array vs) = (do return .array (← vs.mapM (value S))) := by
  rw [value, valuesAfter_eq]
  simp

theorem annotated_eq (S : ImportSource) (type : UInt16) (es : List Element) :
    annotated S ⟨type, es⟩ = (do
      let type ← index S type
      return ⟨type, ← es.mapM (element S)⟩) := by
  rw [annotated]
  simp [elementsAfter_eq]

end Relocation

section Annotations

variable {P : Symbol → Prop} {S : ImportSource}

mutual

theorem settles_value (hS : S.Supplies P) : (v : ElementValue) →
    Settles P (value S v) (Again (ElementValue.Copied S) value v)
  | .const tag i =>
    (settles_index hS i).wrap (ElementValue.const tag) (fun _ _ => .const) fun _ _ => rfl
  | .enum type constant => by
    refine ((settles_index hS type).bind fun i => (settles_index hS constant).bind fun j =>
      settles_pure (ElementValue.enum i j)).mono ?_
    rintro G g _ _ ⟨i, g1, ⟨hi, ri⟩, j, g2, ⟨hj, rj⟩, rfl, rfl⟩
    refine ⟨.enum hi hj, ?_⟩
    rw [value, bind_run ri, bind_run rj]
    rfl
  | .classInfo i =>
    (settles_index hS i).wrap ElementValue.classInfo (fun _ _ => .classInfo) fun _ _ => rfl
  | .nested content =>
    (settles_annotated hS content).wrap ElementValue.nested (fun _ _ => .nested) fun _ _ => rfl
  | .array vs => by
    rw [value_array]
    exact (settles_values hS vs).wrap ElementValue.array (fun _ _ => .array) fun G => value_array G

theorem settles_annotated (hS : S.Supplies P) : (a : AnnotationInfo) →
    Settles P (annotated S a) (Again (AnnotationInfo.Copied S) annotated a)
  | ⟨type, es⟩ => by
    rw [annotated_eq]
    refine ((settles_index hS type).bind fun i => (settles_elements hS es).bind fun es' =>
      settles_pure (AnnotationInfo.mk i es')).mono ?_
    rintro G g _ _ ⟨i, g1, ⟨hi, ri⟩, es', g2, ⟨hes, res⟩, rfl, rfl⟩
    refine ⟨.mk hi hes, ?_⟩
    rw [annotated_eq, bind_run ri, bind_run res]
    rfl

theorem settles_values (hS : S.Supplies P) : (vs : List ElementValue) →
    Settles P (vs.mapM (value S))
      (Again (fun G => List.Forall₂ (ElementValue.Copied S G)) (fun G ys => ys.mapM (value G)) vs)
  | [] => settles_mapM_nil
  | v :: vs => (settles_value hS v).mapM_cons (settles_values hS vs)

theorem settles_elements (hS : S.Supplies P) : (es : List Element) →
    Settles P (es.mapM (element S))
      (Again (fun G => List.Forall₂ (Element.Copied S G)) (fun G ys => ys.mapM (element G)) es)
  | [] => settles_mapM_nil
  | ⟨name, v⟩ :: es => by
    refine Settles.mapM_cons ?_ (settles_elements hS es)
    refine ((settles_index hS name).bind fun i => (settles_value hS v).bind fun v' =>
      settles_pure (Element.mk i v')).mono ?_
    rintro G g _ _ ⟨i, g1, ⟨hi, ri⟩, v', g2, ⟨hv, rv⟩, rfl, rfl⟩
    refine ⟨.mk hi hv, ?_⟩
    rw [element, bind_run ri, bind_run rv]
    rfl

end

theorem settles_annotations (hS : S.Supplies P) (items : List AnnotationInfo) :
    Settles P (annotations S items)
      (Again (fun G => List.Forall₂ (AnnotationInfo.Copied S G)) annotations items) :=
  .mapM (settles_annotated hS) items

end Annotations

/-! ## Rows -/

section Rows

variable {P : Symbol → Prop} {S : ImportSource}

theorem settles_indices (hS : S.Supplies P) (is : List UInt16) :
    Settles P (is.mapM (index S))
      (Again (fun G => List.Forall₂ (SameSymbol S · G ·)) (fun G js => js.mapM (index G)) is) :=
  .mapM (settles_index hS) is

theorem settles_innerClass (hS : S.Supplies P) (c : InnerClass) :
    Settles P (innerClass S c) (Again (InnerClass.Copied S) innerClass c) := by
  refine ((settles_index hS c.inner).bind fun i => (settles_optional hS c.outer).bind fun j =>
    (settles_optional hS c.name).bind fun k => settles_pure (InnerClass.mk i j k c.access)).mono ?_
  rintro G g _ _ ⟨i, g1, ⟨hi, ri⟩, j, g2, ⟨hj, rj⟩, k, g3, ⟨hk, rk⟩, rfl, rfl⟩
  refine ⟨⟨hi, hj, hk, rfl⟩, ?_⟩
  rw [innerClass, bind_run ri, bind_run rj, bind_run rk]
  rfl

theorem settles_parameter (hS : S.Supplies P) (p : Parameter) :
    Settles P (parameter S p) (Again (Parameter.Copied S) parameter p) :=
  (settles_optional hS p.name).wrap (Parameter.mk · p.access) (fun _ _ h => ⟨h, rfl⟩) fun _ _ => rfl

end Rows

end JvmClass
