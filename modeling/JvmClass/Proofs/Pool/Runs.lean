import JvmClass.Proofs.Pool.Import

/-!
# Runs of requests

A request that fails leaves behind what it has entered before. `Runs` therefore speaks about both
outcomes: the state keeps its invariant, nothing that was in the pool changes, and then either the
result is as it should be or the error is one of those to be expected. An import is followed in
this way once (`Copying.importWithin`), for whatever is to be said of the copy of an entry.
-/

namespace JvmClass

/-! ## Both outcomes of a run -/

/-- Whatever becomes of the run of `x` from `s`, it ends in a state with `I`, whose pool begins with
that of `s`. If it succeeds, `post` holds of the result; if it fails, `E` holds of the error. -/
def Runs {σ α : Type} (view : σ → ImportSource) (I : σ → Prop) (E : Error → Prop)
    (x : EStateM Error σ α) (s : σ) (post : α → σ → Prop) : Prop :=
  match x s with
  | .ok a t => I t ∧ view s ≤ view t ∧ post a t
  | .error e t => I t ∧ view s ≤ view t ∧ E e

section Runs

variable {σ α β : Type} {view : σ → ImportSource} {I : σ → Prop} {E : Error → Prop}
  {x : EStateM Error σ α} {s : σ} {post : α → σ → Prop}

theorem runs_of_ok {a : α} {t : σ} (h : x s = .ok a t) (hI : I t) (hle : view s ≤ view t)
    (hpost : post a t) : Runs view I E x s post := by
  rw [Runs, h]
  exact ⟨hI, hle, hpost⟩

theorem runs_of_error {e : Error} {t : σ} (h : x s = .error e t) (hI : I t)
    (hle : view s ≤ view t) (he : E e) : Runs view I E x s post := by
  rw [Runs, h]
  exact ⟨hI, hle, he⟩

theorem runs_pure {a : α} (hI : I s) (hpost : post a s) : Runs view I E (pure a) s post :=
  runs_of_ok rfl hI (le_refl _) hpost

theorem runs_throw {e : Error} (hI : I s) (he : E e) : Runs view I E (throw e) s post :=
  runs_of_error rfl hI (le_refl _) he

theorem runs_ofExcept {r : Except Error α} (hI : I s) (hok : ∀ a, r = .ok a → post a s)
    (herror : ∀ e, r = .error e → E e) : Runs view I E (ofExcept r) s post := by
  cases r with
  | ok a => exact runs_pure hI (hok a rfl)
  | error e => exact runs_throw hI (herror e rfl)

namespace Runs

theorem ok (h : Runs view I E x s post) {a : α} {t : σ} (ht : x s = .ok a t) :
    I t ∧ view s ≤ view t ∧ post a t := by
  rwa [Runs, ht] at h

theorem error (h : Runs view I E x s post) {e : Error} {t : σ} (ht : x s = .error e t) :
    I t ∧ view s ≤ view t ∧ E e := by
  rwa [Runs, ht] at h

theorem mono (h : Runs view I E x s post) {post' : α → σ → Prop}
    (imp : ∀ a t, x s = .ok a t → I t → view s ≤ view t → post a t → post' a t) :
    Runs view I E x s post' := by
  cases hx : x s with
  | ok a t =>
    obtain ⟨hI, hle, hpost⟩ := h.ok hx
    exact runs_of_ok hx hI hle (imp a t hx hI hle hpost)
  | error e t =>
    obtain ⟨hI, hle, he⟩ := h.error hx
    exact runs_of_error hx hI hle he

theorem bind {f : α → EStateM Error σ β} {post' : β → σ → Prop} (hx : Runs view I E x s post)
    (hf : ∀ a t, I t → view s ≤ view t → post a t → Runs view I E (f a) t post') :
    Runs view I E (x >>= f) s post' := by
  cases h : x s with
  | error e t =>
    obtain ⟨hI, hle, he⟩ := hx.error h
    exact runs_of_error (bind_eq_error.2 (.inl h)) hI hle he
  | ok a t =>
    obtain ⟨hI, hle, hpost⟩ := hx.ok h
    have hrest := hf a t hI hle hpost
    cases h' : f a t with
    | ok b u =>
      obtain ⟨hI', hle', hpost'⟩ := hrest.ok h'
      exact runs_of_ok ((bind_run h).trans h') hI' (le_trans hle hle') hpost'
    | error e u =>
      obtain ⟨hI', hle', he⟩ := hrest.error h'
      exact runs_of_error ((bind_run h).trans h') hI' (le_trans hle hle') he

/-- The results of a list, where what holds of a result goes on holding while the pool grows. -/
theorem mapM {f : α → EStateM Error σ β} {R : ImportSource → α → β → Prop}
    (mono : ∀ G H a b, G ≤ H → R G a b → R H a b) {as : List α} (hI : I s)
    (hf : ∀ a ∈ as, ∀ t, I t → view s ≤ view t → Runs view I E (f a) t fun b u => R (view u) a b) :
    Runs view I E (as.mapM f) s fun bs t => List.Forall₂ (R (view t)) as bs := by
  induction as generalizing s with
  | nil => exact runs_pure hI .nil
  | cons a as ih =>
    rw [List.mapM_cons]
    obtain ⟨hfirst, hrest⟩ := List.forall_mem_cons.1 hf
    refine (hfirst s hI (le_refl _)).bind fun b t ht hle hb => ?_
    refine (ih ht fun a ha u hu hle' => hrest a ha u hu (le_trans hle hle')).bind
      fun bs u hu hle' hbs => runs_pure hu ?_
    exact .cons (mono _ _ a b hle' hb) hbs

end Runs

end Runs

/-! ## Single entries -/

namespace Grow

variable {g g' : GrowingPool} {I : GrowingPool → Prop} {E : Error → Prop}

theorem add_eq_error {c : Constant} {e : Error} :
    add c g = .error e g' ↔ g' = g ∧ (c.encode = .error e ∨ ∃ key, c.encode = .ok key ∧
      g.indices[key]? = none ∧ 0xFFFF ≤ g.pool.size + c.slots ∧ e = .poolOverflow) := by
  unfold add
  cases c.encode with
  | error e' => simp [eq_comm, and_comm]
  | ok key =>
    simp only [reduceCtorEq, false_or, Except.ok.injEq, exists_eq_left']
    cases g.indices[key]? with
    | some i => simp
    | none =>
      simp only
      split
      · simp
        omega
      · rename_i hfull
        simp [eq_comm, and_comm, Nat.not_lt.1 hfull]

theorem bootstrapMethod_eq_error {m : BootstrapMethod} {e : Error} :
    bootstrapMethod m g = .error e g' ↔ g' = g ∧ g.bootstrapIndices[m]? = none ∧
      0x10000 ≤ g.bootstrap.size ∧
      e = .tooManyEntries .newBootstrapMethods (g.bootstrap.size + 1) := by
  unfold bootstrapMethod
  cases g.bootstrapIndices[m]? with
  | some i => simp
  | none =>
    simp only
    split
    · simp
      omega
    · rename_i hfull
      simp [eq_comm, and_comm, Nat.not_lt.1 hfull]

/-- An entry is found, added or refused. -/
theorem runs_add {c : Constant} {post : UInt16 → GrowingPool → Prop} (hI : I g)
    (hold : ∀ key i, c.encode = .ok key → g.indices[key]? = some i → post i g)
    (hnew : ∀ key, c.encode = .ok key → g.indices[key]? = none →
      g.pool.size + c.slots < 0xFFFF → I (g.enter c key) ∧ post g.next (g.enter c key))
    (hlong : ∀ e, c.encode = .error e → E e)
    (hfull : ∀ key, c.encode = .ok key → g.indices[key]? = none →
      0xFFFF ≤ g.pool.size + c.slots → E .poolOverflow) :
    Runs GrowingPool.source I E (add c) g post := by
  cases h : add c g with
  | ok i g' =>
    obtain ⟨key, hkey, ⟨hi, rfl⟩ | ⟨hi, hfit, rfl, rfl⟩⟩ := add_eq_ok.1 h
    · exact runs_of_ok h hI (le_refl _) (hold key i hkey hi)
    · obtain ⟨hI', hpost⟩ := hnew key hkey hi hfit
      exact runs_of_ok h hI' (g.le_enter c key) hpost
  | error e g' =>
    obtain ⟨rfl, he | ⟨key, hkey, hi, hfit, rfl⟩⟩ := add_eq_error.1 h
    · exact runs_of_error h hI (le_refl _) (hlong e he)
    · exact runs_of_error h hI (le_refl _) (hfull key hkey hi hfit)

/-- A bootstrap method is found, added or refused. -/
theorem runs_bootstrapMethod {m : BootstrapMethod} {post : UInt16 → GrowingPool → Prop} (hI : I g)
    (hold : ∀ i, g.bootstrapIndices[m]? = some i → post i g)
    (hnew : g.bootstrapIndices[m]? = none → g.bootstrap.size < 0x10000 →
      I (g.enterBootstrap m) ∧ post (UInt16.ofNat g.bootstrap.size) (g.enterBootstrap m))
    (hfull : g.bootstrapIndices[m]? = none → 0x10000 ≤ g.bootstrap.size →
      E (.tooManyEntries .newBootstrapMethods (g.bootstrap.size + 1))) :
    Runs GrowingPool.source I E (bootstrapMethod m) g post := by
  cases h : bootstrapMethod m g with
  | ok i g' =>
    rcases bootstrapMethod_eq_ok.1 h with ⟨hi, rfl⟩ | ⟨hi, hfit, rfl, rfl⟩
    · exact runs_of_ok h hI (le_refl _) (hold i hi)
    · obtain ⟨hI', hpost⟩ := hnew hi hfit
      exact runs_of_ok h hI' (g.le_enterBootstrap m) hpost
  | error e g' =>
    obtain ⟨rfl, hi, hfit, rfl⟩ := bootstrapMethod_eq_error.1 h
    exact runs_of_error h hI (le_refl _) (hfull hi hfit)

end Grow

/-! ## Imports -/

/-- The entry `d` refers in `G` to copies of what `c` refers to in `S`, where `T` says of two
entries that the second is a copy of the first. -/
structure Constant.Mirrors (S : ImportSource) (T : UInt16 → UInt16 → Prop) (G : ImportSource)
    (c d : Constant) : Prop where
  head : d.head = c.head
  references : List.Forall₂ T c.references d.references
  bootstrap : ∀ m, c.bootstrap? = some m → ∃ b k b', S.bootstrap[m.toNat]? = some b ∧
    d.bootstrap? = some k ∧ G.bootstrap[k.toNat]? = some b' ∧ T b.method b'.method ∧
    List.Forall₂ T b.arguments b'.arguments

/-- Entries of `S` can be copied wherever `I` holds, with errors in `E`: `T G i j` is what it means
for the entry `j` of `G` to be a copy of the entry `i`. -/
structure Copying (S : ImportSource) (I : GrowingPool → Prop) (E : Error → Prop)
    (T : ImportSource → UInt16 → UInt16 → Prop) : Prop where
  mono : ∀ G H i j, G ≤ H → T G i j → T H i j
  entry : ∀ i c d g, S.pool.get? i = some c → c.isUnusable = false → I g →
    c.Mirrors S (T g.source) g.source d →
    Runs GrowingPool.source I E (Grow.add d) g fun j g' => T g'.source i j
  method : ∀ (m : Nat) b b' g, S.bootstrap[m]? = some b → I g →
    T g.source b.method b'.method → List.Forall₂ (T g.source) b.arguments b'.arguments →
    Runs GrowingPool.source I E (Grow.bootstrapMethod b') g
      fun k g' => g'.bootstrap[k.toNat]? = some b'
  malformed : ∀ i fault, E (.malformedConstant i fault)
  unexpected : ∀ role c, E (.unexpectedConstant role c)

theorem Constant.mirrors_leaf {S G : ImportSource} {T : UInt16 → UInt16 → Prop} {c : Constant}
    (hrefs : c.references = []) (hb : c.bootstrap? = none) : c.Mirrors S T G c where
  head := rfl
  references := by rw [hrefs]; exact .nil
  bootstrap m hm := by rw [hb] at hm; cases hm

/-- An entry that is not dynamic, with copies of what it refers to. -/
theorem Constant.mirrors_relocated {S G : ImportSource} {T : UInt16 → UInt16 → Prop} {c : Constant}
    {js : List UInt16} (hb : c.bootstrap? = none) (h : List.Forall₂ T c.references js) :
    c.Mirrors S T G (c.relocated 0 js) := by
  obtain ⟨hrefs, hhead, -⟩ := relocated_spec h.length_eq.symm 0
  exact ⟨hhead, by rwa [hrefs], fun m hm => by rw [hb] at hm; cases hm⟩

/-- A dynamic entry with a copy of its bootstrap method. -/
theorem Constant.mirrors_dynamic {S G : ImportSource} {T : UInt16 → UInt16 → Prop} {c : Constant}
    {m k : UInt16} {b b' : BootstrapMethod} {js : List UInt16} (hb : c.bootstrap? = some m)
    (hm : S.bootstrap[m.toNat]? = some b) (hk : G.bootstrap[k.toNat]? = some b')
    (hmethod : T b.method b'.method) (harguments : List.Forall₂ T b.arguments b'.arguments)
    (h : List.Forall₂ T c.references js) : c.Mirrors S T G (c.relocated k js) := by
  obtain ⟨hrefs, hhead, hboot, -⟩ := relocated_spec h.length_eq.symm k
  refine ⟨hhead, by rwa [hrefs], fun m' hm' => ?_⟩
  cases hb.symm.trans hm'
  exact ⟨b, k, b', hm, by rw [hboot, hb, Option.map_some], hk, hmethod, harguments⟩

theorem forall₂_sameSymbol {S G : ImportSource} {is js : List UInt16}
    (h : List.Forall₂ (fun i j => SameSymbol S i G j) is js) :
    ∃ parts, List.Forall₂ S.Denotes is parts ∧ List.Forall₂ G.Denotes js parts := by
  induction h with
  | nil => exact ⟨[], .nil, .nil⟩
  | cons hij _ ih =>
    obtain ⟨t, hi, hj⟩ := hij
    obtain ⟨parts, his, hjs⟩ := ih
    exact ⟨t :: parts, .cons hi his, .cons hj hjs⟩

/-- Where copies stand for the same, so do all parts of an entry and of its copy. -/
theorem Constant.Mirrors.denotes {S G : ImportSource} {c d : Constant}
    (h : c.Mirrors S (fun i j => SameSymbol S i G j) G d) :
    ∃ is js parts, S.references? c = some is ∧ G.references? d = some js ∧
      List.Forall₂ S.Denotes is parts ∧ List.Forall₂ G.Denotes js parts := by
  obtain ⟨parts, his, hjs⟩ := forall₂_sameSymbol h.references
  cases hb : c.bootstrap? with
  | none =>
    have hsome : d.bootstrap?.isSome = c.bootstrap?.isSome := by
      rw [← d.isSome_bootstrap?_head, h.head, c.isSome_bootstrap?_head]
    have hb' : d.bootstrap? = none := by simpa [hb] using hsome
    exact ⟨_, _, parts, by rw [ImportSource.references?, hb],
      by rw [ImportSource.references?, hb'], his, hjs⟩
  | some m =>
    obtain ⟨b, k, b', hm, hb', hk, ⟨t, ht, ht'⟩, harguments⟩ := h.bootstrap m hb
    obtain ⟨ts, hts, hts'⟩ := forall₂_sameSymbol harguments
    refine ⟨b.method :: b.arguments ++ c.references, b'.method :: b'.arguments ++ d.references,
      t :: ts ++ parts, ?_, ?_, .cons ht (List.rel_append hts his),
      .cons ht' (List.rel_append hts' hjs)⟩
    · rw [ImportSource.references?, hb]
      exact Option.map_eq_some_iff.2 ⟨b, hm, rfl⟩
    · rw [ImportSource.references?, hb']
      exact Option.map_eq_some_iff.2 ⟨b', hk, rfl⟩

namespace Copying

variable {S : ImportSource} {I : GrowingPool → Prop} {E : Error → Prop}
  {T : ImportSource → UInt16 → UInt16 → Prop} (h : Copying S I E T) {g : GrowingPool}

include h

theorem get_error {i : UInt16} {e : Error} (he : S.pool.get i = .error e) : E e := by
  unfold Pool.get at he
  split at he
  · cases he
  · cases he
    exact h.malformed _ _

theorem text_error {i : UInt16} {e : Error} (he : S.pool.text i = .error e) : E e := by
  unfold Pool.text at he
  cases hc : S.pool.get i with
  | error e' =>
    rw [hc] at he
    cases he
    exact h.get_error hc
  | ok c =>
    rw [hc] at he
    cases c <;> cases he
    all_goals exact h.unexpected _ _

theorem runs_text {i : UInt16} {s : String} (hI : I g) (hs : S.pool.text i = .ok s) :
    Runs GrowingPool.source I E (Grow.text s) g fun j g' => T g'.source i j :=
  h.entry i _ _ g (Pool.text_eq_ok.1 hs) rfl hI (Constant.mirrors_leaf rfl rfl)

theorem runs_importText (i : UInt16) (hI : I g) :
    Runs GrowingPool.source I E (Grow.importText S i) g fun j g' => T g'.source i j := by
  have htext : Runs GrowingPool.source I E (ofExcept (S.pool.text i) : Grow String) g
      fun s _ => S.pool.text i = .ok s :=
    runs_ofExcept hI (fun s hs => hs) fun e he => h.text_error he
  exact htext.bind fun s g1 hI1 _ hs => h.runs_text hI1 hs

/-- Both texts of a name and type are read before the first is entered. -/
theorem runs_nameAndType {i a b : UInt16} (hc : S.pool.get? i = some (.nameAndType a b))
    (hI : I g) :
    Runs GrowingPool.source I E (do
      let s ← ofExcept (S.pool.text a)
      let t ← ofExcept (S.pool.text b)
      Grow.nameAndType s t) g fun j g' => T g'.source i j := by
  have htext (k : UInt16) {g : GrowingPool} (hI : I g) : Runs GrowingPool.source I E
      (ofExcept (S.pool.text k) : Grow String) g fun s _ => S.pool.text k = .ok s :=
    runs_ofExcept hI (fun s hs => hs) fun e he => h.text_error he
  refine (htext a hI).bind fun s g1 hI1 _ hs => (htext b hI1).bind fun t g2 hI2 _ ht => ?_
  refine (h.runs_text hI2 hs).bind fun x g3 hI3 _ hx => ?_
  refine (h.runs_text hI3 ht).bind fun y g4 hI4 hle hy => ?_
  refine h.entry i _ _ g4 hc rfl hI4 ⟨rfl, ?_, fun m hm => by cases hm⟩
  exact .cons (h.mono _ _ _ _ hle hx) (.cons hy .nil)

variable {n : Nat} (ih : ∀ i g, I g → Runs GrowingPool.source I E (Grow.importWithin S n i) g
  fun j g' => T g'.source i j)

include ih

theorem runs_references (c : Constant) (hI : I g) :
    Runs GrowingPool.source I E (c.references.mapM (Grow.importReference S n c.isNaming)) g
      fun js g' => List.Forall₂ (T g'.source) c.references js := by
  refine Runs.mapM h.mono hI fun k _ g1 hI1 _ => ?_
  unfold Grow.importReference
  split
  · exact h.runs_importText k hI1
  · exact ih k g1 hI1

theorem runs_plain {i : UInt16} {c : Constant} (hc : S.pool.get? i = some c)
    (hu : c.isUnusable = false) (hb : c.bootstrap? = none) (hI : I g) :
    Runs GrowingPool.source I E
      (do Grow.add (c.relocated 0 (← c.references.mapM (Grow.importReference S n c.isNaming)))) g
      fun j g' => T g'.source i j :=
  (h.runs_references ih c hI).bind fun _ g1 hI1 _ hjs =>
    h.entry i c _ g1 hc hu hI1 (Constant.mirrors_relocated hb hjs)

theorem runs_dynamic {i m : UInt16} {c : Constant} {b : BootstrapMethod}
    (hc : S.pool.get? i = some c) (hu : c.isUnusable = false) (hb : c.bootstrap? = some m)
    (hm : S.bootstrap[m.toNat]? = some b) (hI : I g) :
    Runs GrowingPool.source I E (do
      let handle ← Grow.importWithin S n b.method
      let arguments ← b.arguments.mapM (Grow.importWithin S n)
      let k ← Grow.bootstrapMethod ⟨handle, arguments⟩
      Grow.add (c.relocated k (← c.references.mapM (Grow.importWithin S n)))) g
      fun j g' => T g'.source i j := by
  refine (ih b.method g hI).bind fun handle g1 hI1 _ hhandle => ?_
  refine (Runs.mapM h.mono hI1 fun k _ g' hI' _ => ih k g' hI').bind
    fun arguments g2 hI2 le2 harguments => ?_
  have hhandle2 := h.mono _ _ _ _ le2 hhandle
  refine (h.method m.toNat b ⟨handle, arguments⟩ g2 hm hI2 hhandle2 harguments).bind
    fun k g3 hI3 le3 hk => ?_
  refine (Runs.mapM h.mono hI3 fun k _ g' hI' _ => ih k g' hI').bind fun js g4 hI4 le4 hjs => ?_
  have le24 := le_trans le3 le4
  -- the bootstrap method keeps its place while the name and type are imported
  refine h.entry i c _ g4 hc hu hI4 (Constant.mirrors_dynamic hb hm
    (ImportSource.bootstrap_mono le4 hk) (h.mono _ _ _ _ le24 hhandle2) ?_ hjs)
  exact harguments.imp fun a b => h.mono _ _ a b le24

omit ih in
theorem importWithin (n : Nat) (i : UInt16) (g : GrowingPool) (hI : I g) :
    Runs GrowingPool.source I E (Grow.importWithin S n i) g fun j g' => T g'.source i j := by
  induction n generalizing i g with
  | zero => exact runs_throw hI (h.malformed _ _)
  | succ n ih =>
    have hget : Runs GrowingPool.source I E (ofExcept (S.pool.get i) : Grow Constant) g
        fun c _ => S.pool.get? i = some c :=
      runs_ofExcept hI (fun c hc => Pool.get_eq_ok.1 hc) fun e he => h.get_error he
    rw [Grow.importWithin]
    refine hget.bind fun c g1 hI1 _ hc => ?_
    cases c with
    | nameAndType a b => exact h.runs_nameAndType hc hI1
    | dynamic m a | invokeDynamic m a =>
      dsimp only
      cases hm : S.bootstrap[m.toNat]? with
      | none => exact runs_throw hI1 (h.malformed _ _)
      | some b =>
        have hrun := h.runs_dynamic ih hc rfl rfl hm hI1
        simpa [Constant.references, Constant.relocated] using hrun
    | unusable => exact runs_throw hI1 (h.malformed _ _)
    | _ =>
      have hrun := h.runs_plain ih hc rfl rfl hI1
      simpa [Constant.references, Constant.relocated, Grow.importReference, Constant.isNaming,
        Grow.importText, Grow.text, Grow.integer, Grow.float, Grow.long, Grow.double,
        Grow.classRef, Grow.methodType, Grow.moduleRef, Grow.packageRef,
        Grow.methodHandle] using hrun

omit ih in
theorem importEntry (i : UInt16) (g : GrowingPool) (hI : I g) :
    Runs GrowingPool.source I E (Grow.importEntry S i) g fun j g' => T g'.source i j :=
  h.importWithin _ i g hI

end Copying

end JvmClass
