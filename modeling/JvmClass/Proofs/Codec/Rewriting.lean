import JvmClass.Proofs.Codec.Attribute

/-!
# Writing attributes that were read

`Rewritten`: what was read is written in as many bytes, and is read again from them; they are the
bytes it was read from exactly if the code arrays inside are canonical. Only code that is too long
keeps it from being written. The statement is proved along the nesting of attributes, from the
code arrays outwards.
-/

namespace JvmClass

/-- What writing an item comes to that was read off `used`, with the code arrays `codes`. -/
structure Rewritten {α : Type} (p : Pool) (spell : α → List Bytes → Bytes → Prop)
    (encode : α → Except Error Bytes) (a : α) (codes : List Bytes) (used : Bytes) : Prop where
  short : (∀ code ∈ codes, code.length < 0x10000) →
    ∃ out codes', encode a = .ok out ∧ spell a codes' out ∧ out.length = used.length ∧
      (out = used ↔ ∀ code ∈ codes, Code.IsCanonical p code)
  long : ∀ code ∈ codes, ¬code.length < 0x10000 → ∃ n, encode a = .error (.tooManyEntries .code n)

namespace Rewritten

variable {α β : Type} {p : Pool} {spell : α → List Bytes → Bytes → Prop}
  {encode : α → Except Error Bytes}

/-- An item without code. -/
theorem exact {a : α} {used : Bytes} (he : encode a = .ok used) (hs : spell a [] used) :
    Rewritten p spell encode a [] used where
  short _ := ⟨used, [], he, hs, rfl, by simp⟩
  long code hc := nomatch hc

/-- Something fixed in front, and the item inside something else. -/
theorem behind {a : α} {b : β} {codes : List Bytes} {used : Bytes}
    {spell' : β → List Bytes → Bytes → Prop} {encode' : β → Except Error Bytes} (head : Bytes)
    (h : Rewritten p spell encode a codes used)
    (ok : ∀ out, encode a = .ok out → out.length = used.length → encode' b = .ok (head ++ out))
    (error : ∀ e, encode a = .error e → encode' b = .error e)
    (hs : ∀ codes' out, spell a codes' out → out.length = used.length →
      spell' b codes' (head ++ out)) :
    Rewritten p spell' encode' b codes (head ++ used) where
  short hc := by
    obtain ⟨out, codes', he, ho, hl, hiff⟩ := h.short hc
    refine ⟨head ++ out, codes', ok out he hl, hs codes' out ho hl, by simp [hl], ?_⟩
    rw [List.append_cancel_left_eq, hiff]
  long code hc hl := by
    obtain ⟨n, he⟩ := h.long code hc hl
    exact ⟨n, error _ he⟩

/-- Two items, one behind the other. -/
theorem pair {a : α} {b : β} {codes codes' : List Bytes} {used used' : Bytes}
    {spell' : β → List Bytes → Bytes → Prop} {encode' : β → Except Error Bytes}
    (ha : Rewritten p spell encode a codes used) (hb : Rewritten p spell' encode' b codes' used') :
    Rewritten p
      (fun x codes used => ∃ ps qs u v, spell x.1 ps u ∧ spell' x.2 qs v ∧ codes = ps ++ qs ∧
        used = u ++ v)
      (fun x => do return (← encode x.1) ++ (← encode' x.2)) (a, b) (codes ++ codes')
      (used ++ used') where
  short hc := by
    obtain ⟨hps, hqs⟩ := List.forall_mem_append.1 hc
    obtain ⟨u, ps, heu, hsu, hlu, hiu⟩ := ha.short hps
    obtain ⟨v, qs, hev, hsv, hlv, hiv⟩ := hb.short hqs
    refine ⟨u ++ v, ps ++ qs, append_eq_ok.2 ⟨u, v, heu, hev, rfl⟩,
      ⟨ps, qs, u, v, hsu, hsv, rfl, rfl⟩, by simp [hlu, hlv], ?_⟩
    rw [List.forall_mem_append, ← hiu, ← hiv]
    constructor
    · intro e
      exact List.append_inj e hlu
    · rintro ⟨rfl, rfl⟩
      rfl
  long code hc hl := by
    by_cases hps : ∀ c ∈ codes, c.length < 0x10000
    · obtain ⟨u, ps, heu, -⟩ := ha.short hps
      obtain ⟨n, hn⟩ := hb.long code ((List.mem_append.1 hc).resolve_left
        fun hm => hl (hps code hm)) hl
      exact ⟨n, by rw [heu, hn]; rfl⟩
    · simp only [Classical.not_forall] at hps
      obtain ⟨c, hc, hl⟩ := hps
      obtain ⟨n, hn⟩ := ha.long c hc hl
      exact ⟨n, by rw [hn]; rfl⟩

theorem list {as : List α} {codes : List Bytes} {used : Bytes}
    (h : ∀ a ∈ as, ∀ codes used, spell a codes used → Rewritten p spell encode a codes used)
    (hs : GathersAll spell as codes used) :
    Rewritten p (GathersAll spell) (concatM encode) as codes used := by
  induction as generalizing codes used with
  | nil =>
    obtain ⟨rfl, rfl⟩ := hs
    exact .exact rfl ⟨rfl, rfl⟩
  | cons a as ih =>
    obtain ⟨ps, qs, u, v, hu, hv, rfl, rfl⟩ := hs
    obtain ⟨ha, has⟩ := List.forall_mem_cons.1 h
    refine ((ha ps u hu).pair (ih has hv)).behind [] (fun out he _ => ?_) (fun e he => ?_)
      fun codes out ho _ => ho
    · rw [concatM_cons]
      exact he
    · rw [concatM_cons]
      exact he

theorem table {as : List α} {codes : List Bytes} {used : Bytes}
    (h : ∀ a ∈ as, ∀ codes used, spell a codes used → Rewritten p spell encode a codes used)
    (t : Table) (hs : SpellsTable spell as codes used) :
    Rewritten p (SpellsTable spell)
      (fun as => do return (← t.count as.length) ++ (← concatM encode as)) as codes used := by
  obtain ⟨hl, v, hv, rfl⟩ := hs
  refine (list h hv).behind _ (fun out he _ => ?_) (fun e he => ?_) fun codes' out ho _ => ?_
  · exact Table.encodeM_eq_ok.2 ⟨hl, out, he, rfl⟩
  · rw [Table.count_eq_ok.2 ⟨hl, rfl⟩, he]
    rfl
  · exact ⟨hl, out, ho, rfl⟩

end Rewritten

/-! ## The writer without accumulators -/

def Component.encode (c : Component) : Except Error Bytes := do
  return Bytes.ofU16 c.name ++ Bytes.ofU16 c.descriptor ++ (← Attribute.encodeTable c.attributes)

theorem encodeAttributes_eq (pieces : List Bytes) (attributes : List Attribute) :
    encodeAttributes pieces attributes =
      (do return pieces.reverse.flatten ++ (← concatM Attribute.encode attributes)) := by
  induction attributes generalizing pieces with
  | nil =>
    rw [encodeAttributes, concatM_nil]
    show _ = Except.ok _
    rw [List.append_nil]
  | cons a rest ih =>
    rw [encodeAttributes, concatM_cons]
    cases a.encode with
    | error e => rfl
    | ok piece =>
      show encodeAttributes (piece :: pieces) rest = _
      rw [ih]
      cases concatM Attribute.encode rest <;> simp [bind, Except.bind, pure, Except.pure]

theorem encodeAttributes_nil (attributes : List Attribute) :
    encodeAttributes [] attributes = concatM Attribute.encode attributes := by
  rw [encodeAttributes_eq]
  cases concatM Attribute.encode attributes <;> rfl

theorem Attribute.encodeTable_eq (attributes : List Attribute) :
    Attribute.encodeTable attributes =
      (do return (← Table.attributes.count attributes.length) ++
        (← concatM Attribute.encode attributes)) := by
  unfold Attribute.encodeTable
  rw [encodeAttributes_nil]

theorem encodeComponents_eq (pieces : List Bytes) (components : List Component) :
    encodeComponents pieces components =
      (do return pieces.reverse.flatten ++ (← concatM Component.encode components)) := by
  induction components generalizing pieces with
  | nil =>
    rw [encodeComponents, concatM_nil]
    show _ = Except.ok _
    rw [List.append_nil]
  | cons c rest ih =>
    obtain ⟨name, descriptor, attributes⟩ := c
    rw [encodeComponents, concatM_cons, Component.encode, Attribute.encodeTable]
    cases Table.attributes.count attributes.length with
    | error e => rfl
    | ok count =>
      cases encodeAttributes [] attributes with
      | error e => rfl
      | ok piece =>
        show encodeComponents ((_ ++ piece) :: pieces) rest = _
        rw [ih]
        cases concatM Component.encode rest <;> simp [bind, Except.bind, pure, Except.pure]

theorem Payload.encode_record (components : List Component) :
    (Payload.record components).encode =
      (do return (← Table.recordComponents.count components.length) ++
        (← concatM Component.encode components)) := by
  rw [Payload.encode, encodeComponents_eq]
  cases concatM Component.encode components <;> rfl

theorem CodeBody.encode_eq (body : CodeBody) :
    body.encode = (do
      let assembled ← Code.reassemble body.instructions
      let handlers ← Table.exceptionTable.count body.handlers.length
      let attributes ← Attribute.encodeTable body.attributes
      return Bytes.ofU16 body.maxStack ++ Bytes.ofU16 body.maxLocals ++
        Bytes.ofU32 (UInt32.ofNat assembled.bytes.length) ++ assembled.bytes ++ handlers ++
        body.handlers.flatMap Handler.encode ++ attributes) := by
  obtain ⟨maxStack, maxLocals, instructions, handlers, attributes⟩ := body
  rw [CodeBody.encode]
  unfold Attribute.encodeTable
  cases Code.reassemble instructions <;> cases Table.exceptionTable.count handlers.length <;>
    cases Table.attributes.count attributes.length <;> cases encodeAttributes [] attributes <;>
    simp [bind, Except.bind, pure, Except.pure]

/-! ## From the inside out -/

section Levels

variable {p : Pool} {inner : Attribute → List Bytes → Bytes → Prop} {codes : List Bytes}
  {used : Bytes}
  (h : ∀ a codes used, inner a codes used → Rewritten p inner Attribute.encode a codes used)

include h

theorem Attribute.rewritten_table {attributes : List Attribute}
    (hs : SpellsTable inner attributes codes used) :
    Rewritten p (SpellsTable inner) Attribute.encodeTable attributes codes used := by
  have e : Attribute.encodeTable = _ := funext Attribute.encodeTable_eq
  rw [e]
  exact .table (fun a _ => h a) .attributes hs

theorem CodeBody.rewritten {body : CodeBody} (hs : body.SpellsWith p inner codes used) :
    Rewritten p (CodeBody.SpellsWith p inner) CodeBody.encode body codes used := by
  obtain ⟨maxStack, maxLocals, instructions, handlers, attributes⟩ := body
  obtain ⟨code, rest, v, hlen, hd, hh, hv, rfl, rfl⟩ := hs
  have ht := Attribute.rewritten_table h hv
  have hcount : Table.exceptionTable.count handlers.length = .ok _ :=
    Table.count_eq_ok.2 ⟨hh, rfl⟩
  constructor
  · intro hc
    obtain ⟨hcode, hrest⟩ := List.forall_mem_cons.1 hc
    obtain ⟨out, hre, hlo, hdo, hio⟩ := Code.reassemble_of_decode hd hcode
    obtain ⟨v', rest', hev, hsv, hlv, hiv⟩ := ht.short hrest
    refine ⟨_, out :: rest', ?_, ⟨out, rest', v', by omega, hdo, hh, hsv, rfl, rfl⟩, ?_, ?_⟩
    · rw [CodeBody.encode_eq, hre, hcount, hev]
      rfl
    · simp [hlo, hlv]
    · rw [List.forall_mem_cons, ← hio, ← hiv, hlo]
      constructor
      · intro e
        obtain ⟨hfront, rfl⟩ := List.append_inj' e hlv
        have hcode' := List.append_cancel_right (List.append_cancel_right hfront)
        exact ⟨List.append_cancel_left hcode', rfl⟩
      · rintro ⟨rfl, rfl⟩
        rfl
  · intro c hc hl
    rw [CodeBody.encode_eq]
    by_cases hcode : code.length < 0x10000
    · obtain ⟨out, hre, -⟩ := Code.reassemble_of_decode hd hcode
      obtain ⟨n, hn⟩ := ht.long c ((List.mem_cons.1 hc).resolve_left fun e => hl (e ▸ hcode)) hl
      exact ⟨n, by rw [hre, hcount, hn]; rfl⟩
    · exact ⟨code.length, by rw [Code.reassemble_of_long hd (by omega)]; rfl⟩

theorem Component.rewritten {c : Component} (hs : c.SpellsWith inner codes used) :
    Rewritten p (Component.SpellsWith inner) Component.encode c codes used := by
  obtain ⟨name, descriptor, attributes⟩ := c
  obtain ⟨v, hv, rfl⟩ := hs
  refine (Attribute.rewritten_table h hv).behind _ (fun out he _ => ?_) (fun e he => ?_)
    fun codes' out ho _ => ⟨out, ho, rfl⟩
  · rw [Component.encode, he]
    rfl
  · rw [Component.encode, he]
    rfl

theorem Payload.rewritten {name : String} {payload : Payload}
    (hs : payload.SpellsWith p inner name codes used) :
    Rewritten p (fun payload => payload.SpellsWith p inner name) Payload.encode payload codes
      used := by
  cases payload with
  | code body =>
    obtain ⟨rfl, hs⟩ := hs
    exact (CodeBody.rewritten h hs).behind [] (fun out he _ => he) (fun e he => he)
      fun codes' out ho _ => ⟨rfl, ho⟩
  | record components =>
    obtain ⟨rfl, hs⟩ := hs
    refine (Rewritten.table (fun c _ _ _ => Component.rewritten h) .recordComponents hs).behind []
      (fun out he _ => ?_) (fun e he => ?_) fun codes' out ho _ => ⟨rfl, ho⟩
    · rw [encode_record]
      exact he
    · rw [encode_record]
      exact he
  | raw bytes =>
    obtain ⟨hn, rfl, rfl⟩ := hs
    exact .exact rfl ⟨hn, rfl, rfl⟩
  | _ =>
    obtain ⟨hn, hr, rfl, he⟩ := hs
    exact .exact he ⟨hn, hr, rfl, he⟩

end Levels

/-- What writing an attribute comes to. -/
theorem Attribute.rewritten {p : Pool} {depth : Nat} (a : Attribute) (codes : List Bytes)
    (used : Bytes) (hs : a.Spells p depth codes used) :
    Rewritten p (Attribute.Spells p depth) Attribute.encode a codes used := by
  induction depth generalizing a codes used with
  | zero => exact hs.elim
  | succ depth ih =>
    obtain ⟨index, payload⟩ := a
    obtain ⟨name, v, hn, hl, hv, rfl⟩ := hs
    refine (Payload.rewritten ih hv).behind _ (fun out he ho => ?_) (fun e he => ?_)
      fun codes' out hs ho => ?_
    · rw [Attribute.encode, he]
      show Attribute.frame index out = _
      rw [Attribute.frame, if_pos (by omega), ho]
    · rw [Attribute.encode, he]
      rfl
    · refine ⟨name, out, hn, by omega, hs, ?_⟩
      rw [ho]

end JvmClass
