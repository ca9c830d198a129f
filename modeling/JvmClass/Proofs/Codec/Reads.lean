import JvmClass.Reader
import Mathlib.Data.List.Forall2

/-!
# Readers and spellings

`Reads r spell`: with no log, `r` returns `a` exactly on inputs that start with a spelling of `a`,
and goes on right behind it. It looks at nothing else, so the statement is about the bytes alone,
in both directions: what was read was spelled there, and what is spelled is read back. The lemmas
follow the ways readers are put together; a reader for a type is then characterised by one
`Reads` theorem, and no later proof runs it.
-/

namespace JvmClass

/-! ## Runs that succeed -/

theorem bind_eq_ok {ε σ α β : Type} {x : EStateM ε σ α} {f : α → EStateM ε σ β} {s t : σ} {b : β} :
    (x >>= f) s = .ok b t ↔ ∃ a u, x s = .ok a u ∧ f a u = .ok b t := by
  show EStateM.bind x f s = _ ↔ _
  unfold EStateM.bind
  constructor
  · intro h
    split at h
    · rename_i a u hx
      exact ⟨a, u, hx, h⟩
    · cases h
  · rintro ⟨a, u, hx, hf⟩
    rw [hx]
    exact hf

theorem bind_run {ε σ α β : Type} {x : EStateM ε σ α} {f : α → EStateM ε σ β} {s t : σ} {a : α}
    (h : x s = .ok a t) : (x >>= f) s = f a t := by
  show EStateM.bind x f s = _
  unfold EStateM.bind
  rw [h]

theorem bind_eq_error {ε σ α β : Type} {x : EStateM ε σ α} {f : α → EStateM ε σ β} {s t : σ}
    {e : ε} :
    (x >>= f) s = .error e t ↔ x s = .error e t ∨ ∃ a u, x s = .ok a u ∧ f a u = .error e t := by
  show EStateM.bind x f s = _ ↔ _
  unfold EStateM.bind
  cases x s <;> simp

theorem pure_eq_ok {ε σ α : Type} {a b : α} {s t : σ} :
    (pure a : EStateM ε σ α) s = .ok b t ↔ b = a ∧ t = s := by
  show EStateM.Result.ok a s = _ ↔ _
  rw [EStateM.Result.ok.injEq]
  exact ⟨fun ⟨h1, h2⟩ => ⟨h1.symm, h2.symm⟩, fun ⟨h1, h2⟩ => ⟨h1.symm, h2.symm⟩⟩

theorem throw_ne_ok {ε σ α : Type} {e : ε} {s t : σ} {a : α} :
    (throw e : EStateM ε σ α) s ≠ .ok a t := by
  intro h
  cases h

theorem ofExcept_eq_ok {ε σ α : Type} {x : Except ε α} {s t : σ} {a : α} :
    (ofExcept x : EStateM ε σ α) s = .ok a t ↔ x = .ok a ∧ t = s := by
  cases x with
  | ok b => exact pure_eq_ok.trans ⟨fun ⟨h1, h2⟩ => ⟨by rw [h1], h2⟩,
      fun ⟨h1, h2⟩ => ⟨(Except.ok.inj h1).symm, h2⟩⟩
  | error e => exact ⟨fun h => absurd h throw_ne_ok, fun ⟨h, _⟩ => nomatch h⟩

theorem ofExcept_eq_error {ε σ α : Type} {x : Except ε α} {s t : σ} {e : ε} :
    (ofExcept x : EStateM ε σ α) s = .error e t ↔ x = .error e ∧ t = s := by
  cases x with
  | ok a =>
    show EStateM.Result.ok a s = _ ↔ _
    simp
  | error e' =>
    show EStateM.Result.error e' s = _ ↔ _
    simp [eq_comm]

theorem exceptBind_eq_ok {ε α β : Type} {x : Except ε α} {f : α → Except ε β} {b : β} :
    (x >>= f) = .ok b ↔ ∃ a, x = .ok a ∧ f a = .ok b := by
  cases x with
  | ok a =>
    constructor
    · intro h
      exact ⟨a, rfl, h⟩
    · rintro ⟨_, h, hf⟩
      cases h
      exact hf
  | error e =>
    constructor
    · intro h
      cases h
    · rintro ⟨_, h, _⟩
      cases h

theorem exceptBind_eq_error {ε α β : Type} {x : Except ε α} {f : α → Except ε β} {e : ε} :
    (x >>= f) = .error e ↔ x = .error e ∨ ∃ a, x = .ok a ∧ f a = .error e := by
  cases x with
  | ok a =>
    constructor
    · intro h
      exact .inr ⟨a, rfl, h⟩
    · rintro (h | ⟨_, h, hf⟩)
      · cases h
      · cases h
        exact hf
  | error e' =>
    constructor
    · intro h
      exact .inl (congrArg Except.error (Except.error.inj h))
    · rintro (h | ⟨_, h, _⟩)
      · exact congrArg Except.error (Except.error.inj h)
      · cases h

theorem exceptBind_run {ε α β : Type} {x : Except ε α} {f : α → Except ε β} {a : α}
    (h : x = .ok a) : (x >>= f) = f a := by
  rw [h]
  rfl

theorem mapM_cons_eq_ok {ε α β : Type} {f : α → Except ε β} {a : α} {as : List α} {bs : List β} :
    (a :: as).mapM f = .ok bs ↔ ∃ c cs, f a = .ok c ∧ as.mapM f = .ok cs ∧ bs = c :: cs := by
  rw [List.mapM_cons, exceptBind_eq_ok]
  constructor
  · rintro ⟨c, hc, h⟩
    obtain ⟨cs, hcs, h⟩ := exceptBind_eq_ok.1 h
    exact ⟨c, cs, hc, hcs, (Except.ok.inj h).symm⟩
  · rintro ⟨c, cs, hc, hcs, rfl⟩
    exact ⟨c, hc, exceptBind_eq_ok.2 ⟨cs, hcs, rfl⟩⟩

theorem mapM_eq_ok_iff {ε α β : Type} {f : α → Except ε β} {as : List α} {bs : List β} :
    as.mapM f = .ok bs ↔ List.Forall₂ (fun a b => f a = .ok b) as bs := by
  induction as generalizing bs with
  | nil =>
    rw [List.forall₂_nil_left_iff]
    exact ⟨fun h => (Except.ok.inj h).symm, fun h => by rw [h]; rfl⟩
  | cons a as ih =>
    rw [mapM_cons_eq_ok, List.forall₂_cons_left_iff]
    simp only [ih]

theorem mapM_eq_error {ε α β : Type} {f : α → Except ε β} {as : List α} {e : ε}
    (h : as.mapM f = .error e) : ∃ a ∈ as, f a = .error e := by
  induction as with
  | nil => cases h
  | cons a as ih =>
    rw [List.mapM_cons, exceptBind_eq_error] at h
    rcases h with h | ⟨b, -, h⟩
    · exact ⟨a, List.mem_cons_self, h⟩
    · rcases exceptBind_eq_error.1 h with h | ⟨bs, -, h⟩
      · obtain ⟨a', ha', h⟩ := ih h
        exact ⟨a', List.mem_cons_of_mem a ha', h⟩
      · cases h

theorem exists_mapM_ok {ε α β : Type} {f : α → Except ε β} {as : List α}
    (h : ∀ a ∈ as, ∃ b, f a = .ok b) : ∃ bs, as.mapM f = .ok bs := by
  cases hm : as.mapM f with
  | ok bs => exact ⟨bs, rfl⟩
  | error e =>
    obtain ⟨a, ha, he⟩ := mapM_eq_error hm
    obtain ⟨b, hb⟩ := h a ha
    cases hb.symm.trans he

theorem exists_getElem?_of_forall₂ {α β : Type} {R : α → β → Prop} {as : List α} {bs : List β}
    (h : List.Forall₂ R as bs) {k : Nat} {a : α} (ha : as[k]? = some a) :
    ∃ b, bs[k]? = some b ∧ R a b := by
  obtain ⟨hk, rfl⟩ := List.getElem?_eq_some_iff.1 ha
  have hk' : k < bs.length := h.length_eq ▸ hk
  exact ⟨bs[k], List.getElem?_eq_getElem hk', h.get hk hk'⟩

theorem getElem?_of_mapM {ε α β : Type} {f : α → Except ε β} {as : List α} {bs : List β}
    (h : as.mapM f = .ok bs) {k : Nat} {a : α} (ha : as[k]? = some a) :
    ∃ b, bs[k]? = some b ∧ f a = .ok b :=
  exists_getElem?_of_forall₂ (mapM_eq_ok_iff.1 h) ha

theorem exists_of_forall₂ {α β : Type} {R : α → β → Prop} {as : List α} {bs : List β}
    (h : List.Forall₂ R as bs) : ∀ b ∈ bs, ∃ a ∈ as, R a b := by
  induction h with
  | nil => simp
  | @cons a b as bs hab _ ih =>
    refine List.forall_mem_cons.2 ⟨⟨a, List.mem_cons_self, hab⟩, fun b' hb' => ?_⟩
    obtain ⟨a', ha', hr⟩ := ih b' hb'
    exact ⟨a', List.mem_cons_of_mem a ha', hr⟩

theorem map_eq_of_forall₂ {α β γ : Type} {f : α → γ} {g : β → γ} {as : List α} {bs : List β}
    (h : List.Forall₂ (fun a b => g b = f a) as bs) : bs.map g = as.map f := by
  induction h with
  | nil => rfl
  | cons hab _ ih => rw [List.map_cons, List.map_cons, hab, ih]

theorem forall₂_comp {α β γ : Type} {R : α → β → Prop} {Q : β → γ → Prop} {as : List α}
    {bs : List β} {cs : List γ} (h : List.Forall₂ R as bs) (h' : List.Forall₂ Q bs cs) :
    List.Forall₂ (fun a c => ∃ b, R a b ∧ Q b c) as cs := by
  induction h generalizing cs with
  | nil =>
    cases h'
    exact .nil
  | cons hab _ ih =>
    cases h' with
    | cons hbc hrest => exact .cons ⟨_, hab, hbc⟩ (ih hrest)

/-- Two lists that go with one, item by item. -/
theorem forall₂_of_forall₂ {α β γ : Type} {R : α → β → Prop} {R' : α → γ → Prop}
    {Q : β → γ → Prop} {as : List α} {bs : List β} {cs : List γ} (hb : List.Forall₂ R as bs)
    (hc : List.Forall₂ R' as cs) (h : ∀ a b c, R a b → R' a c → Q b c) : List.Forall₂ Q bs cs := by
  refine (forall₂_comp (R := flip R) hb.flip hc).imp ?_
  rintro b c ⟨a, hab, hac⟩
  exact h a b c hab hac

theorem forall₂_map_map {α β γ δ : Type} {Q : γ → δ → Prop} {f : α → γ} {g : β → δ} {as : List α}
    {bs : List β} (h : List.Forall₂ (fun a b => Q (f a) (g b)) as bs) :
    List.Forall₂ Q (as.map f) (bs.map g) :=
  List.forall₂_map_left_iff.2 (List.forall₂_map_right_iff.2 h)

theorem forall₂_eraseIdx {α β : Type} {R : α → β → Prop} {as : List α} {bs : List β}
    (h : List.Forall₂ R as bs) (k : Nat) : List.Forall₂ R (as.eraseIdx k) (bs.eraseIdx k) := by
  rw [List.eraseIdx_eq_take_drop_succ, List.eraseIdx_eq_take_drop_succ]
  exact List.rel_append (List.forall₂_take k h) (List.forall₂_drop (k + 1) h)

/-- Results end to end. -/
theorem append_eq_ok {ε : Type} {x y : Except ε Bytes} {out : Bytes} :
    (do return (← x) ++ (← y)) = .ok out ↔ ∃ u v, x = .ok u ∧ y = .ok v ∧ out = u ++ v := by
  rw [exceptBind_eq_ok]
  constructor
  · rintro ⟨u, hx, h⟩
    obtain ⟨v, hy, h⟩ := exceptBind_eq_ok.1 h
    exact ⟨u, v, hx, hy, (Except.ok.inj h).symm⟩
  · rintro ⟨u, v, hx, hy, rfl⟩
    exact ⟨u, hx, exceptBind_eq_ok.2 ⟨v, hy, rfl⟩⟩

/-! ## Spelled lists -/

/-- The items of a list, spelled one behind the other. -/
def SpellsAll {α : Type} (spell : α → Bytes → Prop) : List α → Bytes → Prop
  | [], used => used = []
  | a :: as, used => ∃ u v, spell a u ∧ SpellsAll spell as v ∧ used = u ++ v

namespace SpellsAll

variable {α : Type} {spell : α → Bytes → Prop}

theorem mono {spell' : α → Bytes → Prop} {as : List α} {used : Bytes}
    (h : SpellsAll spell as used)
    (imp : ∀ a ∈ as, ∀ u, u.length ≤ used.length → spell a u → spell' a u) :
    SpellsAll spell' as used := by
  induction as generalizing used with
  | nil => exact h
  | cons a as ih =>
    obtain ⟨u, v, hu, hv, rfl⟩ := h
    refine ⟨u, v, imp a (by simp) u (by simp) hu, ih hv fun b hb w hw => ?_, rfl⟩
    exact imp b (by simp [hb]) w (by simp; omega)

theorem length_ge {n : Nat} {as : List α} {used : Bytes} (h : SpellsAll spell as used)
    (min : ∀ a u, spell a u → n ≤ u.length) : as.length * n ≤ used.length := by
  induction as generalizing used with
  | nil => simp
  | cons a as ih =>
    obtain ⟨u, v, hu, hv, rfl⟩ := h
    have h1 := min a u hu
    have h2 := ih hv
    rw [List.length_cons, Nat.add_mul, List.length_append]
    omega

/-- Where every item has one spelling, so has the list. -/
theorem and_eq_flatMap {ok : α → Prop} {enc : α → Bytes} {as : List α} {used : Bytes} :
    SpellsAll (fun a u => ok a ∧ u = enc a) as used ↔
      (∀ a ∈ as, ok a) ∧ used = as.flatMap enc := by
  induction as generalizing used with
  | nil => simp [SpellsAll]
  | cons a as ih =>
    rw [List.flatMap_cons, List.forall_mem_cons]
    constructor
    · rintro ⟨u, v, ⟨ha, rfl⟩, hv, rfl⟩
      obtain ⟨has, rfl⟩ := ih.1 hv
      exact ⟨⟨ha, has⟩, rfl⟩
    · rintro ⟨⟨ha, has⟩, rfl⟩
      exact ⟨_, _, ⟨ha, rfl⟩, ih.2 ⟨has, rfl⟩, rfl⟩

theorem eq_flatMap {enc : α → Bytes} {as : List α} {used : Bytes} :
    SpellsAll (fun a u => u = enc a) as used ↔ used = as.flatMap enc := by
  have h := @and_eq_flatMap α (fun _ => True) enc as used
  simpa using h

end SpellsAll

/-- The items of a list, spelled one behind the other, and the parts picked out of each, in
order. -/
def GathersAll {α : Type} (spell : α → List Bytes → Bytes → Prop) :
    List α → List Bytes → Bytes → Prop
  | [], parts, used => parts = [] ∧ used = []
  | a :: as, parts, used =>
    ∃ ps qs u v, spell a ps u ∧ GathersAll spell as qs v ∧ parts = ps ++ qs ∧ used = u ++ v

theorem GathersAll.nil {α : Type} {spell : α → List Bytes → Bytes → Prop} :
    GathersAll spell [] [] [] :=
  ⟨rfl, rfl⟩

theorem GathersAll.cons {α : Type} {spell : α → List Bytes → Bytes → Prop} {a : α} {as : List α}
    {ps qs : List Bytes} {u v : Bytes} (h : spell a ps u) (hs : GathersAll spell as qs v) :
    GathersAll spell (a :: as) (ps ++ qs) (u ++ v) :=
  ⟨ps, qs, u, v, h, hs, rfl, rfl⟩

theorem exists_gathersAll_iff {α : Type} {spell : α → List Bytes → Bytes → Prop} {as : List α}
    {used : Bytes} :
    (∃ parts, GathersAll spell as parts used) ↔
      SpellsAll (fun a u => ∃ parts, spell a parts u) as used := by
  induction as generalizing used with
  | nil => exact ⟨fun ⟨_, _, h⟩ => h, fun h => ⟨[], rfl, h⟩⟩
  | cons a as ih =>
    constructor
    · rintro ⟨_, ps, qs, u, v, hu, hv, rfl, rfl⟩
      exact ⟨u, v, ⟨ps, hu⟩, ih.1 ⟨qs, hv⟩, rfl⟩
    · rintro ⟨u, v, ⟨ps, hu⟩, hv, rfl⟩
      obtain ⟨qs, hv⟩ := ih.2 hv
      exact ⟨ps ++ qs, ps, qs, u, v, hu, hv, rfl, rfl⟩

theorem GathersAll.mono {α : Type} {spell spell' : α → List Bytes → Bytes → Prop} {as : List α}
    {parts : List Bytes} {used : Bytes} (h : GathersAll spell as parts used)
    (imp : ∀ a ps u, u.length ≤ used.length → spell a ps u → spell' a ps u) :
    GathersAll spell' as parts used := by
  induction as generalizing parts used with
  | nil => exact h
  | cons a as ih =>
    obtain ⟨ps, qs, u, v, hu, hv, rfl, rfl⟩ := h
    refine ⟨ps, qs, u, v, imp a ps u (by simp) hu, ih hv fun b rs w hw => ?_, rfl, rfl⟩
    exact imp b rs w (by simp; omega)

theorem concatM_nil {ε α : Type} (f : α → Except ε Bytes) : concatM f [] = .ok [] := rfl

theorem concatM_cons {ε α : Type} (f : α → Except ε Bytes) (a : α) (as : List α) :
    concatM f (a :: as) = (do return (← f a) ++ (← concatM f as)) := by
  unfold concatM
  rw [List.mapM_cons]
  cases f a with
  | error e => rfl
  | ok u => cases as.mapM f <;> rfl

/-- Items that are written alike, one by one. -/
theorem concatM_congr {ε α : Type} {f : α → Except ε Bytes} {as bs : List α}
    (h : List.Forall₂ (fun a b => f a = f b) as bs) : concatM f as = concatM f bs := by
  induction h with
  | nil => rfl
  | cons hab _ ih => rw [concatM_cons, concatM_cons, hab, ih]

theorem concatM_append {ε α : Type} (f : α → Except ε Bytes) (as bs : List α) :
    concatM f (as ++ bs) = (do return (← concatM f as) ++ (← concatM f bs)) := by
  induction as with
  | nil =>
    rw [List.nil_append, concatM_nil]
    cases concatM f bs <;> rfl
  | cons a as ih =>
    rw [List.cons_append, concatM_cons, concatM_cons, ih]
    cases f a <;> cases concatM f as <;> cases concatM f bs <;>
      simp [bind, Except.bind, pure, Except.pure]

theorem concatM_id_map {ε α : Type} (f : α → Except ε Bytes) (as : List α) :
    concatM id (as.map f) = concatM f as := by
  unfold concatM
  rw [List.mapM_map]
  rfl

theorem concatM_eq_ok {ε α : Type} {f : α → Except ε Bytes} {as : List α} {out : Bytes}
    (h : concatM f as = .ok out) : ∀ a ∈ as, ∃ u, f a = .ok u := by
  induction as generalizing out with
  | nil => simp
  | cons a as ih =>
    rw [concatM_cons, append_eq_ok] at h
    obtain ⟨u, v, hu, hv, -⟩ := h
    exact List.forall_mem_cons.2 ⟨⟨u, hu⟩, ih hv⟩

theorem concatM_eq_error {ε α : Type} {f : α → Except ε Bytes} {as : List α} {e : ε}
    (h : concatM f as = .error e) : ∃ a ∈ as, f a = .error e := by
  induction as with
  | nil => cases h
  | cons a as ih =>
    rw [concatM_cons] at h
    cases ha : f a with
    | error e' =>
      rw [ha] at h
      cases h
      exact ⟨a, by simp, ha⟩
    | ok u =>
      rw [ha] at h
      cases hc : concatM f as with
      | error e' =>
        rw [hc] at h
        cases h
        obtain ⟨b, hb, hf⟩ := ih hc
        exact ⟨b, by simp [hb], hf⟩
      | ok v =>
        rw [hc] at h
        cases h

/-- Spellings that a fallible function writes. -/
theorem spellsAll_concatM {ε α : Type} {ok : α → Prop} {f : α → Except ε Bytes} {as : List α}
    {used : Bytes} :
    SpellsAll (fun a u => ok a ∧ f a = .ok u) as used ↔
      (∀ a ∈ as, ok a) ∧ concatM f as = .ok used := by
  induction as generalizing used with
  | nil =>
    rw [concatM_nil]
    exact ⟨fun h => ⟨by simp, by rw [h]⟩, fun h => (Except.ok.inj h.2).symm⟩
  | cons a as ih =>
    rw [concatM_cons, append_eq_ok]
    constructor
    · rintro ⟨u, v, ⟨ha, hu⟩, hv, rfl⟩
      obtain ⟨has, hc⟩ := ih.1 hv
      exact ⟨by simpa using ⟨ha, has⟩, u, v, hu, hc, rfl⟩
    · rintro ⟨hall, u, v, hu, hc, rfl⟩
      have hall' := List.forall_mem_cons.1 hall
      exact ⟨u, v, ⟨hall'.1, hu⟩, ih.2 ⟨hall'.2, hc⟩, rfl⟩

namespace Reader

variable {α β : Type}

theorem runOn_eq_ok {r : Reader α} {bytes : Bytes} {a : α} :
    r.runOn bytes = .ok a ↔ ∃ c, r (.start bytes .off) = .ok a c := by
  unfold runOn
  cases r (.start bytes .off) <;> simp

theorem runOn_eq_error {r : Reader α} {bytes : Bytes} {e : Error} :
    r.runOn bytes = .error e ↔ ∃ c, r (.start bytes .off) = .error e c := by
  unfold runOn
  cases r (.start bytes .off) <;> simp

/-- `r` reads what `spell` spells. -/
def Reads (r : Reader α) (spell : α → Bytes → Prop) : Prop :=
  ∀ (bytes : Bytes) (offset : Nat) (a : α) (c : Cursor),
    r ⟨bytes, offset, .off⟩ = .ok a c ↔
      ∃ used rest, spell a used ∧ bytes = used ++ rest ∧ c = ⟨rest, offset + used.length, .off⟩

/-- One direction of `Reads`: what `r` returns was spelled there. -/
def Sound (r : Reader α) (spell : α → Bytes → Prop) : Prop :=
  ∀ (bytes : Bytes) (offset : Nat) (a : α) (c : Cursor), r ⟨bytes, offset, .off⟩ = .ok a c →
    ∃ used rest, spell a used ∧ bytes = used ++ rest ∧ c = ⟨rest, offset + used.length, .off⟩

namespace Sound

variable {r : Reader α} {spell spell' : α → Bytes → Prop}

theorem mono (h : Sound r spell) (imp : ∀ a used, spell a used → spell' a used) :
    Sound r spell' := by
  intro bytes offset a c hr
  obtain ⟨used, rest, hs, hb, hc⟩ := h bytes offset a c hr
  exact ⟨used, rest, imp a used hs, hb, hc⟩

theorem bind (hr : Sound r spell) {f : α → Reader β} {next : β → Bytes → Prop}
    (hf : ∀ a u, spell a u → Sound (f a) fun b v => next b (u ++ v)) : Sound (r >>= f) next := by
  intro bytes offset b c h
  obtain ⟨a, c', h1, h2⟩ := bind_eq_ok.1 h
  obtain ⟨u, rest, hu, rfl, rfl⟩ := hr _ _ _ _ h1
  obtain ⟨v, rest, hv, rfl, rfl⟩ := hf a u hu _ _ _ _ h2
  refine ⟨u ++ v, rest, hv, by simp, ?_⟩
  rw [List.length_append, Nat.add_assoc]

theorem throw (e : Error) : Sound (throw e : Reader α) spell := by
  intro bytes offset a c h
  cases h

end Sound

namespace Reads

variable {r : Reader α} {spell spell' : α → Bytes → Prop}

theorem sound (h : Reads r spell) : Sound r spell := by
  intro bytes offset a c
  exact (h bytes offset a c).1

theorem congr (h : Reads r spell) (e : ∀ a used, spell a used ↔ spell' a used) :
    Reads r spell' := by
  intro bytes offset a c
  rw [h bytes offset a c]
  simp only [e]

/-- Both directions on their own. -/
theorem intro (sound : Sound r spell)
    (complete : ∀ a used rest offset, spell a used →
      r ⟨used ++ rest, offset, .off⟩ = .ok a ⟨rest, offset + used.length, .off⟩) :
    Reads r spell := by
  intro bytes offset a c
  constructor
  · exact sound bytes offset a c
  · rintro ⟨used, rest, hs, rfl, rfl⟩
    exact complete a used rest offset hs

/-- What is spelled is read, whatever stands behind it. -/
theorem run (h : Reads r spell) {a : α} {used : Bytes} (hs : spell a used) (rest : Bytes)
    (offset : Nat) :
    r ⟨used ++ rest, offset, .off⟩ = .ok a ⟨rest, offset + used.length, .off⟩ :=
  (h _ _ _ _).2 ⟨used, rest, hs, rfl, rfl⟩

/-- No spelling is the beginning of another one. -/
theorem split (h : Reads r spell) {a b : α} {u v rest rest' : Bytes} (ha : spell a u)
    (hb : spell b v) (e : u ++ rest = v ++ rest') : a = b ∧ u = v ∧ rest = rest' := by
  have e' := (h.run ha rest 0).symm.trans ((congrArg (fun bs => r ⟨bs, 0, .off⟩) e).trans
    (h.run hb rest' 0))
  obtain ⟨h1, h2⟩ := EStateM.Result.ok.inj e'
  have h3 : rest = rest' := congrArg Cursor.bytes h2
  subst h3
  exact ⟨h1, List.append_cancel_right e, rfl⟩

end Reads

/-! ## Single items -/

theorem reads_pure (a : α) : Reads (pure a) fun b used => b = a ∧ used = [] := by
  intro bytes offset b c
  rw [pure_eq_ok]
  constructor
  · rintro ⟨rfl, rfl⟩
    exact ⟨[], bytes, ⟨rfl, rfl⟩, rfl, rfl⟩
  · rintro ⟨used, rest, ⟨rfl, rfl⟩, rfl, rfl⟩
    exact ⟨rfl, rfl⟩

theorem reads_throw (e : Error) : Reads (throw e : Reader α) fun _ _ => False := by
  intro bytes offset a c
  exact ⟨fun h => absurd h throw_ne_ok, fun ⟨_, _, h, _⟩ => h.elim⟩

theorem reads_ofExcept (x : Except Error α) :
    Reads (ofExcept x) fun a used => x = .ok a ∧ used = [] := by
  cases x with
  | ok b =>
    refine (reads_pure b).congr fun a used => ?_
    rw [Except.ok.injEq, eq_comm]
  | error e => exact (reads_throw e).congr fun a used => by simp

theorem reads_u8 : Reads u8 fun a used => used = [a] := by
  intro bytes offset a c
  unfold u8
  constructor
  · intro h
    split at h
    · rename_i rest hb
      cases h
      exact ⟨[a], rest, rfl, hb, rfl⟩
    · cases h
  · rintro ⟨_, rest, rfl, rfl, rfl⟩
    rfl

theorem reads_u16 : Reads u16 fun w used => used = Bytes.ofU16 w := by
  intro bytes offset w c
  unfold u16
  constructor
  · intro h
    split at h
    · rename_i a b rest hb
      cases h
      exact ⟨[a, b], rest, (Bytes.ofU16_u16 a b).symm, hb, rfl⟩
    · cases h
  · rintro ⟨_, rest, rfl, rfl, rfl⟩
    simp only [Bytes.ofU16, List.cons_append, List.nil_append, Bytes.u16_ofU16]
    rfl

theorem reads_u32 : Reads u32 fun w used => used = Bytes.ofU32 w := by
  intro bytes offset w c
  unfold u32
  constructor
  · intro h
    split at h
    · rename_i a b d e rest hb
      cases h
      exact ⟨[a, b, d, e], rest, (Bytes.ofU32_u32 a b d e).symm, hb, rfl⟩
    · cases h
  · rintro ⟨_, rest, rfl, rfl, rfl⟩
    simp only [Bytes.ofU32, List.cons_append, List.nil_append, Bytes.u32_ofU32]
    rfl

theorem reads_u64 : Reads u64 fun w used => used = Bytes.ofU64 w := by
  intro bytes offset w c
  unfold u64
  constructor
  · intro h
    split at h
    · rename_i a b d e f g h' i rest hb
      cases h
      refine ⟨[a, b, d, e, f, g, h', i], rest, Eq.symm ?_, hb, rfl⟩
      rw [Bytes.ofU64_u64, Bytes.ofU32_u32, Bytes.ofU32_u32]
      rfl
    · cases h
  · rintro ⟨_, rest, rfl, rfl, rfl⟩
    simp only [Bytes.ofU64, Bytes.ofU32, List.cons_append, List.nil_append, Bytes.u32_ofU32,
      Bytes.u64_ofU64]
    rfl

theorem reads_take (n : Nat) : Reads (take n) fun a used => used = a ∧ a.length = n := by
  intro bytes offset a c
  unfold take
  simp only [Bytes.atLeast_iff, List.splitAt_eq]
  constructor
  · intro h
    split at h
    · rename_i hn
      cases h
      refine ⟨bytes.take n, bytes.drop n, ⟨rfl, List.length_take_of_le hn⟩, by simp, ?_⟩
      rw [List.length_take_of_le hn]
    · cases h
  · rintro ⟨_, rest, ⟨rfl, rfl⟩, rfl, rfl⟩
    simp

/-! ## Readers in sequence -/

namespace Reads

variable {r : Reader α} {spell : α → Bytes → Prop}

/-- The second reader may count on what the first one has read. -/
theorem bind (hr : Reads r spell) {f : α → Reader β} {next : α → β → Bytes → Prop}
    (hf : ∀ a u, spell a u → Reads (f a) (next a)) :
    Reads (r >>= f) fun b used => ∃ a u v, spell a u ∧ next a b v ∧ used = u ++ v := by
  intro bytes offset b c
  rw [bind_eq_ok]
  constructor
  · rintro ⟨a, c', h1, h2⟩
    obtain ⟨u, rest, hu, rfl, rfl⟩ := (hr _ _ _ _).1 h1
    obtain ⟨v, rest, hv, rfl, rfl⟩ := (hf a u hu _ _ _ _).1 h2
    refine ⟨u ++ v, rest, ⟨a, u, v, hu, hv, rfl⟩, by simp, ?_⟩
    rw [List.length_append, Nat.add_assoc]
  · rintro ⟨_, rest, ⟨a, u, v, hu, hv, rfl⟩, rfl, rfl⟩
    rw [List.append_assoc, List.length_append, ← Nat.add_assoc]
    exact ⟨a, _, hr.run hu _ _, (hf a u hu).run hv rest _⟩

theorem map (hr : Reads r spell) (g : α → β) :
    Reads (do return g (← r)) fun b used => ∃ a, b = g a ∧ spell a used := by
  refine (hr.bind fun a _ _ => reads_pure (g a)).congr fun b used => ?_
  constructor
  · rintro ⟨a, u, v, hu, ⟨rfl, rfl⟩, rfl⟩
    exact ⟨a, rfl, by simpa using hu⟩
  · rintro ⟨a, rfl, ha⟩
    exact ⟨a, used, [], ha, ⟨rfl, rfl⟩, by simp⟩

/-- A word read as another type of the same width. -/
theorem convert {enc : α → Bytes} (hr : Reads r fun a used => used = enc a) {f : α → β} {g : β → α}
    (hfg : ∀ b, f (g b) = b) (hgf : ∀ a, g (f a) = a) :
    Reads (f <$> r) fun b used => used = enc (g b) := by
  rw [map_eq_pure_bind]
  refine (hr.map f).congr fun b used => ?_
  constructor
  · rintro ⟨a, rfl, rfl⟩
    rw [hgf]
  · rintro rfl
    exact ⟨g b, (hfg b).symm, rfl⟩

/-- The offset is there for messages only. -/
theorem offset {f : Nat → Reader α} (h : ∀ n, Reads (f n) spell) :
    Reads (Reader.offset >>= f) spell := by
  intro bytes offset a c
  exact h offset bytes offset a c

/-- A check on the way. -/
theorem guard {p : Prop} [Decidable p] {e : Error} {f : PUnit → Reader α}
    (h : ¬p → Reads (f ⟨⟩) spell) :
    Reads (if p then throw e >>= f else f ⟨⟩) fun a used => ¬p ∧ spell a used := by
  split
  · rename_i hp
    intro bytes offset a c
    constructor
    · intro h
      obtain ⟨_, _, h, -⟩ := bind_eq_ok.1 h
      cases h
    · rintro ⟨used, rest, ⟨hn, -⟩, -⟩
      exact absurd hp hn
  · rename_i hp
    exact (h hp).congr fun a used => ⟨fun hs => ⟨hp, hs⟩, fun hs => hs.2⟩

/-- To ask for bytes that are read afterwards changes nothing. -/
theorem need (hr : Reads r spell) {n : Nat} (h : ∀ a u, spell a u → n ≤ u.length) :
    Reads (do Reader.need n; r) spell := by
  intro bytes offset a c
  rw [bind_eq_ok]
  constructor
  · rintro ⟨_, c', h1, h2⟩
    unfold Reader.need at h1
    split at h1
    · cases h1
      exact (hr _ _ _ _).1 h2
    · cases h1
  · rintro ⟨used, rest, hu, rfl, rfl⟩
    refine ⟨(), _, ?_, hr.run hu rest offset⟩
    unfold Reader.need
    rw [if_pos]
    rw [Bytes.atLeast_iff, List.length_append]
    exact Nat.le_add_right_of_le (h a used hu)

theorem timesAfter (hr : Reads r spell) (n : Nat) (items : List α) :
    Reads (Reader.timesAfter r n items) fun as used =>
      ∃ bs, as = items.reverse ++ bs ∧ bs.length = n ∧ SpellsAll spell bs used := by
  induction n generalizing items with
  | zero =>
    refine (reads_pure items.reverse).congr fun as used => ?_
    constructor
    · rintro ⟨rfl, rfl⟩
      exact ⟨[], by simp, rfl, rfl⟩
    · rintro ⟨bs, rfl, hb, hs⟩
      obtain rfl := List.eq_nil_of_length_eq_zero hb
      exact ⟨by simp, hs⟩
  | succ n ih =>
    refine (hr.bind fun a _ _ => ih (a :: items)).congr fun as used => ?_
    constructor
    · rintro ⟨a, u, v, hu, ⟨bs, rfl, rfl, hs⟩, rfl⟩
      exact ⟨a :: bs, by simp, rfl, u, v, hu, hs, rfl⟩
    · rintro ⟨bs, rfl, hb, hs⟩
      cases bs with
      | nil => cases hb
      | cons a bs =>
        obtain ⟨u, v, hu, hv, rfl⟩ := hs
        exact ⟨a, u, v, hu, ⟨bs, by simp, by simpa using hb, hv⟩, rfl⟩

theorem times (hr : Reads r spell) (n : Nat) :
    Reads (Reader.times n r) fun as used => as.length = n ∧ SpellsAll spell as used := by
  refine (hr.timesAfter n []).congr fun as used => ?_
  simp

/-- A table is its length in two bytes and its items. -/
theorem table (hr : Reads r spell) {size : Nat} (min : ∀ a u, spell a u → size ≤ u.length) :
    Reads (Reader.table size r) fun as used =>
      as.length < 0x10000 ∧ ∃ v, SpellsAll spell as v ∧ used = Bytes.ofCount as.length ++ v := by
  have h := reads_u16.bind fun n _ _ => (hr.times n.toNat).need (n := n.toNat * size)
    fun as u hs => hs.1 ▸ hs.2.length_ge min
  refine h.congr fun as used => ?_
  constructor
  · rintro ⟨n, u, v, rfl, ⟨hn, hs⟩, rfl⟩
    refine ⟨hn ▸ n.toNat_lt, v, hs, ?_⟩
    rw [Bytes.ofCount, hn, UInt16.ofNat_toNat]
  · rintro ⟨hn, v, hs, rfl⟩
    refine ⟨UInt16.ofNat as.length, _, v, rfl, ⟨?_, hs⟩, rfl⟩
    rw [UInt16.toNat_ofNat', Nat.mod_eq_of_lt hn]

end Reads

/-- A tag in front decides how the rest is read. -/
theorem run_tagged {f : UInt8 → Reader α} {spell : α → Bytes → Prop} {tag : UInt8}
    {a : α} {v : Bytes} (h : Reads (f tag) spell) (hs : spell a v) (rest : Bytes) (offset : Nat) :
    (u8 >>= f) ⟨tag :: v ++ rest, offset, .off⟩ =
      .ok a ⟨rest, offset + (tag :: v).length, .off⟩ := by
  rw [bind_run (x := u8) (a := tag) (t := (⟨v ++ rest, offset + 1, .off⟩ : Cursor)) rfl, h.run hs,
    List.length_cons, Nat.add_assoc, Nat.add_comm 1]

/-! ## Signed words -/

theorem reads_i8 : Reads i8 fun i used => used = [i.toUInt8] :=
  reads_u8.convert (g := Int8.toUInt8) (fun _ => rfl) fun _ => rfl

theorem reads_i16 : Reads i16 fun i used => used = Bytes.ofU16 i.toUInt16 :=
  reads_u16.convert (g := Int16.toUInt16) (fun _ => rfl) fun _ => rfl

theorem reads_i32 : Reads i32 fun i used => used = Bytes.ofU32 i.toUInt32 :=
  reads_u32.convert (g := Int32.toUInt32) (fun _ => rfl) fun _ => rfl

theorem reads_i64 : Reads i64 fun i used => used = Bytes.ofU64 i.toUInt64 :=
  reads_u64.convert (g := Int64.toUInt64) (fun _ => rfl) fun _ => rfl

theorem reads_u16Table : Reads u16Table fun indices used =>
    indices.length < 0x10000 ∧
      used = Bytes.ofCount indices.length ++ indices.flatMap Bytes.ofU16 := by
  refine (reads_u16.table fun w u hu => by rw [hu]; simp).congr fun indices used => ?_
  simp only [SpellsAll.eq_flatMap, exists_eq_left]

/-! ## Reading to the end -/

/-- `r` reads all bytes exactly where they are what `spell` spells. Unlike with `Reads`, what
stands behind may matter. -/
def ReadsAll (r : Reader α) (spell : α → Bytes → Prop) : Prop :=
  ∀ (bytes : Bytes) (offset : Nat) (a : α) (c : Cursor),
    r ⟨bytes, offset, .off⟩ = .ok a c ∧ c.bytes = [] ↔
      spell a bytes ∧ c = ⟨[], offset + bytes.length, .off⟩

/-- One direction of `ReadsAll`. -/
def SoundAll (r : Reader α) (spell : α → Bytes → Prop) : Prop :=
  ∀ (bytes : Bytes) (offset : Nat) (a : α) (c : Cursor), r ⟨bytes, offset, .off⟩ = .ok a c →
    c.bytes = [] → spell a bytes ∧ c = ⟨[], offset + bytes.length, .off⟩

theorem Reads.readsAll {r : Reader α} {spell : α → Bytes → Prop} (h : Reads r spell) :
    ReadsAll r spell := by
  intro bytes offset a c
  rw [h bytes offset a c]
  constructor
  · rintro ⟨⟨used, rest, hs, rfl, rfl⟩, hrest⟩
    obtain rfl : rest = [] := hrest
    rw [List.append_nil]
    exact ⟨hs, rfl⟩
  · rintro ⟨hs, rfl⟩
    exact ⟨⟨bytes, [], hs, by simp, rfl⟩, rfl⟩

theorem readsAll_rest : ReadsAll rest fun a used => a = used := by
  intro bytes offset a c
  constructor
  · rintro ⟨h, -⟩
    cases h
    exact ⟨rfl, rfl⟩
  · rintro ⟨rfl, rfl⟩
    exact ⟨rfl, rfl⟩

/-- What is read last may be read to the end. -/
theorem Reads.bindAll {r : Reader α} {spell : α → Bytes → Prop} (hr : Reads r spell)
    {f : α → Reader β} {next : α → β → Bytes → Prop}
    (hf : ∀ a u, spell a u → ReadsAll (f a) (next a)) :
    ReadsAll (r >>= f) fun b used => ∃ a u v, spell a u ∧ next a b v ∧ used = u ++ v := by
  intro bytes offset b c
  rw [bind_eq_ok]
  constructor
  · rintro ⟨⟨a, c', h1, h2⟩, hc⟩
    obtain ⟨u, rest, hu, rfl, rfl⟩ := (hr _ _ _ _).1 h1
    obtain ⟨hv, rfl⟩ := (hf a u hu _ _ _ _).1 ⟨h2, hc⟩
    refine ⟨⟨a, u, rest, hu, hv, rfl⟩, ?_⟩
    rw [List.length_append, Nat.add_assoc]
  · rintro ⟨⟨a, u, v, hu, hv, rfl⟩, rfl⟩
    obtain ⟨h2, -⟩ := (hf a u hu v (offset + u.length) b _).2 ⟨hv, rfl⟩
    rw [List.length_append, ← Nat.add_assoc]
    exact ⟨⟨a, _, hr.run hu v offset, h2⟩, rfl⟩

namespace ReadsAll

variable {r : Reader α} {spell spell' : α → Bytes → Prop}

theorem congr (h : ReadsAll r spell) (e : ∀ a used, spell a used ↔ spell' a used) :
    ReadsAll r spell' := by
  intro bytes offset a c
  rw [h bytes offset a c, e]

theorem map (h : ReadsAll r spell) (g : α → β) :
    ReadsAll (do return g (← r)) fun b used => ∃ a, b = g a ∧ spell a used := by
  intro bytes offset b c
  rw [bind_eq_ok]
  constructor
  · rintro ⟨⟨a, c', hr, hp⟩, hc⟩
    obtain ⟨rfl, rfl⟩ := pure_eq_ok.1 hp
    obtain ⟨hs, hc'⟩ := (h bytes offset a c).1 ⟨hr, hc⟩
    exact ⟨⟨a, rfl, hs⟩, hc'⟩
  · rintro ⟨⟨a, rfl, hs⟩, hc⟩
    obtain ⟨hr, hb⟩ := (h bytes offset a c).2 ⟨hs, hc⟩
    exact ⟨⟨a, c, hr, rfl⟩, hb⟩

theorem sound (h : ReadsAll r spell) (imp : ∀ a used, spell a used → spell' a used) :
    SoundAll r spell' := by
  intro bytes offset a c hr hc
  obtain ⟨hs, hc'⟩ := (h bytes offset a c).1 ⟨hr, hc⟩
  exact ⟨imp a bytes hs, hc'⟩

theorem run (h : ReadsAll r spell) {a : α} {used : Bytes} (hs : spell a used) (offset : Nat) :
    r ⟨used, offset, .off⟩ = .ok a ⟨[], offset + used.length, .off⟩ :=
  ((h used offset a _).2 ⟨hs, rfl⟩).1

theorem intro (sound : SoundAll r spell)
    (complete : ∀ a used offset, spell a used →
      r ⟨used, offset, .off⟩ = .ok a ⟨[], offset + used.length, .off⟩) : ReadsAll r spell := by
  intro bytes offset a c
  constructor
  · rintro ⟨hr, hc⟩
    exact sound bytes offset a c hr hc
  · rintro ⟨hs, rfl⟩
    exact ⟨complete a bytes offset hs, rfl⟩

/-- Nothing is recorded when nobody listens. -/
theorem record (h : ReadsAll r spell) (e : Event) : ReadsAll (do Reader.record e; r) spell := by
  intro bytes offset a c
  exact h bytes offset a c

/-- A payload that has to be read to its end. -/
theorem framed (h : ReadsAll r spell) (payload : Bytes) (start : Nat) (f : Error → Error)
    (g : α → β) (e : Nat → Nat → Error) :
    Reads (do
      let (a, unread, stop) ← mapError f (within payload start r)
      if unread = 0 then return g a else throw (e unread stop))
      fun b used => (∃ a, b = g a ∧ spell a payload) ∧ used = [] := by
  intro bytes offset b c
  rw [bind_eq_ok]
  unfold mapError within
  constructor
  · rintro ⟨⟨a, unread, stop⟩, c', h1, h2⟩
    split at h1
    · rename_i hw
      cases h1
      split at hw
      · rename_i inner hr
        cases hw
        dsimp only at h2
        split at h2
        · rename_i hz
          obtain ⟨rfl, rfl⟩ := pure_eq_ok.1 h2
          obtain ⟨hs, rfl⟩ := (h _ _ _ _).1 ⟨hr, List.eq_nil_of_length_eq_zero hz⟩
          exact ⟨[], bytes, ⟨⟨a, rfl, hs⟩, rfl⟩, rfl, rfl⟩
        · cases h2
      · cases hw
    · cases h1
  · rintro ⟨_, rest, ⟨⟨a, rfl, hs⟩, rfl⟩, rfl, rfl⟩
    obtain ⟨hr, -⟩ := (h payload start a _).2 ⟨hs, rfl⟩
    refine ⟨(a, 0, start + payload.length), _, ?_, rfl⟩
    rw [hr]
    rfl

end ReadsAll

end Reader

/-! ## Counted tables -/

theorem Table.count_eq_ok {table : Table} {n : Nat} {out : Bytes} :
    table.count n = .ok out ↔ n < 0x10000 ∧ out = Bytes.ofCount n := by
  unfold Table.count
  split
  · rename_i h
    exact ⟨fun e => ⟨h, (Except.ok.inj e).symm⟩, fun ⟨_, e⟩ => by rw [e]⟩
  · rename_i h
    exact ⟨fun e => (nomatch e), fun ⟨h', _⟩ => absurd h' h⟩

theorem Table.shortCount_eq_ok {table : Table} {n : Nat} {out : Bytes} :
    table.shortCount n = .ok out ↔ n < 0x100 ∧ out = [UInt8.ofNat n] := by
  unfold Table.shortCount
  split
  · rename_i h
    exact ⟨fun e => ⟨h, (Except.ok.inj e).symm⟩, fun ⟨_, e⟩ => by rw [e]⟩
  · rename_i h
    exact ⟨fun e => (nomatch e), fun ⟨h', _⟩ => absurd h' h⟩

/-- A table whose items cannot fail to be written. -/
theorem Table.encode_eq_ok {α : Type} {table : Table} {enc : α → Bytes} {as : List α}
    {out : Bytes} :
    (do return (← table.count as.length) ++ as.flatMap enc) = .ok out ↔
      as.length < 0x10000 ∧ out = Bytes.ofCount as.length ++ as.flatMap enc := by
  rw [exceptBind_eq_ok]
  constructor
  · rintro ⟨u, hu, ho⟩
    obtain ⟨hl, rfl⟩ := count_eq_ok.1 hu
    exact ⟨hl, (Except.ok.inj ho).symm⟩
  · rintro ⟨hl, rfl⟩
    exact ⟨_, count_eq_ok.2 ⟨hl, rfl⟩, rfl⟩

theorem Table.encodeM_eq_ok {α : Type} {table : Table} {f : α → Except Error Bytes} {as : List α}
    {out : Bytes} :
    (do return (← table.count as.length) ++ (← concatM f as)) = .ok out ↔
      as.length < 0x10000 ∧ ∃ v, concatM f as = .ok v ∧ out = Bytes.ofCount as.length ++ v := by
  rw [append_eq_ok]
  constructor
  · rintro ⟨u, v, hu, hv, rfl⟩
    obtain ⟨hl, rfl⟩ := count_eq_ok.1 hu
    exact ⟨hl, v, hv, rfl⟩
  · rintro ⟨hl, v, hv, rfl⟩
    exact ⟨_, v, count_eq_ok.2 ⟨hl, rfl⟩, hv, rfl⟩

namespace Reader

variable {α : Type}

theorem Reads.encodedTable {r : Reader α} {enc : α → Bytes} (hr : Reads r fun a u => u = enc a)
    (table : Table) {size : Nat} (min : ∀ a, size ≤ (enc a).length) :
    Reads (Reader.table size r) fun as used =>
      (do return (← table.count as.length) ++ as.flatMap enc) = .ok used := by
  refine (hr.table fun a u hu => hu ▸ min a).congr fun as used => ?_
  rw [Table.encode_eq_ok]
  simp only [SpellsAll.eq_flatMap, exists_eq_left]

theorem Reads.encodedTableM {r : Reader α} {ok : α → Prop} {f : α → Except Error Bytes}
    (hr : Reads r fun a u => ok a ∧ f a = .ok u) (table : Table) {size : Nat}
    (min : ∀ a u, ok a → f a = .ok u → size ≤ u.length) :
    Reads (Reader.table size r) fun as used => (∀ a ∈ as, ok a) ∧
      (do return (← table.count as.length) ++ (← concatM f as)) = .ok used := by
  refine (hr.table fun a u hu => min a u hu.1 hu.2).congr fun as used => ?_
  rw [Table.encodeM_eq_ok]
  simp only [spellsAll_concatM]
  constructor
  · rintro ⟨hl, v, ⟨ha, hv⟩, rfl⟩
    exact ⟨ha, hl, v, hv, rfl⟩
  · rintro ⟨ha, hl, v, hv, rfl⟩
    exact ⟨hl, v, ⟨ha, hv⟩, rfl⟩

end Reader

end JvmClass
