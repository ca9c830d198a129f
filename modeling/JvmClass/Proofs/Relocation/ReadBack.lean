import JvmClass.Proofs.Codec.ClassFile
import JvmClass.Proofs.Codec.Promotion
import JvmClass.Proofs.Pool.Validity
import JvmClass.Proofs.Relocation.Code

/-!
# Copies are read back

A copy of what was read can be read: its instructions fit the new pool, its jumps land, and its
annotations nest no deeper. So what is written for a copy is read as the copy, with the frames in
the form in which they are written.
-/

namespace JvmClass

/-- What is written for an item is read as the item. -/
def ReadsBack {α : Type} (spell : α → List Bytes → Bytes → Prop) (encode : α → Except Error Bytes)
    (a : α) : Prop :=
  ∀ out, encode a = .ok out → ∃ codes, spell a codes out

namespace ReadsBack

variable {α : Type} {spell : α → List Bytes → Bytes → Prop} {encode : α → Except Error Bytes}

theorem table {as : List α} (t : Table) (h : ∀ a ∈ as, ReadsBack spell encode a) :
    ReadsBack (SpellsTable spell)
      (fun as => do return (← t.count as.length) ++ (← concatM encode as)) as := by
  intro out ho
  obtain ⟨hl, v, hv, rfl⟩ := Table.encodeM_eq_ok.1 ho
  have hall := spellsAll_concatM.2 ⟨h, hv⟩
  obtain ⟨codes, hc⟩ := exists_gathersAll_iff.2 (hall.mono fun a _ u _ ⟨ha, hu⟩ => ha u hu)
  exact ⟨codes, hl, v, hc, rfl⟩

theorem attributes {inner : Attribute → List Bytes → Bytes → Prop} {as : List Attribute}
    (h : ∀ a ∈ as, ReadsBack inner Attribute.encode a) :
    ReadsBack (SpellsTable inner) Attribute.encodeTable as := by
  intro out ho
  rw [Attribute.encodeTable_eq] at ho
  exact table .attributes h out ho

end ReadsBack

/-- What is written for an item is read, as an item that is written alike. -/
def Legible {α : Type} (spell : α → List Bytes → Bytes → Prop) (encode : α → Except Error Bytes)
    (a : α) : Prop :=
  ∃ a', encode a' = encode a ∧ ReadsBack spell encode a'

theorem Legible.all {α : Type} {spell : α → List Bytes → Bytes → Prop}
    {encode : α → Except Error Bytes} {as : List α} (h : ∀ a ∈ as, Legible spell encode a) :
    ∃ as', List.Forall₂ (fun a' a => encode a' = encode a) as' as ∧
      ∀ a ∈ as', ReadsBack spell encode a := by
  induction as with
  | nil => exact ⟨[], .nil, by simp⟩
  | cons a as ih =>
    obtain ⟨⟨a', ha, hback⟩, hrest⟩ := List.forall_mem_cons.1 h
    obtain ⟨as', has, hbacks⟩ := ih hrest
    exact ⟨a' :: as', .cons ha has, List.forall_mem_cons.2 ⟨hback, hbacks⟩⟩

theorem SpellsTable.exists_of_mem {α : Type} {spell : α → List Bytes → Bytes → Prop} {as : List α}
    {codes : List Bytes} {used : Bytes} (h : SpellsTable spell as codes used) :
    ∀ a ∈ as, ∃ ps u, spell a ps u := by
  obtain ⟨-, v, hv, -⟩ := h
  clear used
  induction as generalizing codes v with
  | nil => simp
  | cons a as ih =>
    obtain ⟨ps, qs, u, w, hu, hw, -, -⟩ := hv
    exact List.forall_mem_cons.2 ⟨⟨ps, u, hu⟩, ih w hw⟩

/-! ## Code -/

section Instructions

variable {S G : ImportSource} {m : OffsetMap}

theorem Opcode.role?_widened (o : Opcode) (i : UInt16) : (o.widened i).role? = o.role? := by
  unfold widened
  split
  · rename_i h
    rw [h.1]
    rfl
  · rfl

theorem Instruction.Copied.fits {i j : Instruction} (h : i.Copied S G m j) (hf : i.Fits S.pool) :
    j.Fits G.pool := by
  obtain ⟨hshape, hrole⟩ := hf
  cases h with
  | simple | access | increment | push | newArray => exact ⟨hshape, fun _ _ hi => nomatch hi⟩
  | branch => exact ⟨hshape, fun _ _ hi => nomatch hi⟩
  | tableSwitch _ hts =>
    exact ⟨⟨hshape.1, hts.length_eq ▸ hshape.2⟩, fun _ _ hi => nomatch hi⟩
  | lookupSwitch _ hps =>
    refine ⟨?_, fun _ _ hi => nomatch hi⟩
    rw [Instruction.Shape, ← hps.length_eq]
    exact hshape
  | @constant o i j hi =>
    refine ⟨?_, ?_⟩
    · show o.widened j = _ ∨ o.widened j = _ ∨ o.widened j = _
      unfold Opcode.widened
      split
      · exact .inr (.inl rfl)
      · exact hshape
    · rintro _ role ⟨⟩ hr
      rw [Instruction.opcode, Opcode.role?_widened] at hr
      exact (hi.holds role).1 (hrole i role rfl hr)
  | field hi | invoke hi | typed hi | invokeInterface hi | invokeDynamic hi | multiNewArray hi =>
    refine ⟨hshape, ?_⟩
    rintro _ role ⟨⟩ hr
    exact (hi.holds role).1 (hrole _ role rfl hr)

/-- Short code whose jumps land has every target in reach. -/
theorem Code.TargetsIn.inReach {code : List Instruction}
    (h : TargetsIn (startsFrom 0 code) code) (hend : endFrom 0 code < 0x10000) :
    ∀ i ∈ code, ∀ o < endFrom 0 code, i.InReach o := by
  intro i hi o ho target ht
  have hlt := (mem_startsFrom (h i hi target ht)).2
  unfold Instruction.Reachable Instruction.distance
  omega

theorem Code.SpellsFrom.fits {p : Pool} {offset : Nat} {code : List Instruction} {used : Bytes}
    (h : SpellsFrom p offset code used) : ∀ i ∈ code, i.Fits p := by
  induction code generalizing offset used with
  | nil => simp
  | cons i rest ih =>
    obtain ⟨u, v, hu, hv, -⟩ := h
    exact List.forall_mem_cons.2 ⟨hu.1, ih hv⟩

/-- Code that fits and whose jumps land is decoded as it is laid out. -/
theorem Code.decode_of_reassemble {p : Pool} {code : List Instruction}
    (hfits : ∀ i ∈ code, i.Fits p) (ht : TargetsIn (startsFrom 0 code) code) {a : Assembled}
    (ha : reassemble code = .ok a) :
    Instruction.decode p a.bytes = .ok code ∧ a.bytes.length < 0x10000 := by
  obtain ⟨hend, he, -, -⟩ := (reassemble_eq_ok_iff ht).1 ha
  have hs := SpellsFrom.of_encode hfits (ht.inReach hend) he
  have hlen := hs.end_eq
  exact ⟨decode_eq_ok_iff.2 ⟨hs, ht⟩, by omega⟩

/-- What is laid out for copied code is decoded as the copy. -/
theorem Code.decode_of_copied {indices : Std.HashMap Nat Nat} {code code' : List Instruction}
    {bytes : Bytes} (hd : Instruction.decode S.pool bytes = .ok code)
    (h : List.Forall₂ (Instruction.Copied S G ⟨indices, offsets code'⟩) code code')
    {a : Assembled} (ha : reassemble code' = .ok a) :
    Instruction.decode G.pool a.bytes = .ok code' ∧ a.bytes.length < 0x10000 := by
  have hend : endFrom 0 code' < 0x10000 := (assemble_eq_ok_iff.1 ha).1
  have hfits : ∀ j ∈ code', j.Fits G.pool := by
    intro j hj
    obtain ⟨i, hi, hij⟩ := exists_of_forall₂ h j hj
    exact hij.fits ((decode_eq_ok_iff.1 hd).1.fits i hi)
  exact decode_of_reassemble hfits (targetsIn_of_copied h hend) ha

end Instructions

/-! ## Flat payloads -/

section Payloads

variable {S G : ImportSource}

theorem ElementValue.Copied.isReadable {depth : Nat} {v v' : ElementValue}
    (h : ElementValue.Copied S G v v') (hv : v.IsReadable depth) : v'.IsReadable depth := by
  induction depth generalizing v v' with
  | zero =>
    cases h with
    | const => exact hv
    | enum | classInfo => trivial
    | nested ha =>
      obtain ⟨-, -⟩ := ha
      exact hv.elim
    | array => exact hv.elim
  | succ depth ih =>
    cases h with
    | const => exact hv
    | enum | classInfo => trivial
    | nested ha =>
      obtain ⟨-, hes⟩ := ha
      intro e' he'
      obtain ⟨e, he, hee⟩ := exists_of_forall₂ hes e' he'
      obtain ⟨-, hvalue⟩ := hee
      exact ih hvalue (hv _ he)
    | array hvs =>
      intro v' hv'
      obtain ⟨v, hm, hvv⟩ := exists_of_forall₂ hvs v' hv'
      exact ih hvv (hv v hm)

theorem AnnotationInfo.Copied.isReadable {depth : Nat} {a a' : AnnotationInfo}
    (h : AnnotationInfo.Copied S G a a') (ha : a.IsReadable depth) : a'.IsReadable depth := by
  obtain ⟨-, hes⟩ := h
  intro e' he'
  obtain ⟨e, he, hee⟩ := exists_of_forall₂ hes e' he'
  obtain ⟨-, hvalue⟩ := hee
  exact hvalue.isReadable (ha _ he)

theorem isReadable_annotations {depth : Nat} {as as' : List AnnotationInfo}
    (h : List.Forall₂ (AnnotationInfo.Copied S G) as as') (has : ∀ a ∈ as, a.IsReadable depth) :
    ∀ a ∈ as', a.IsReadable depth := by
  intro a' ha'
  obtain ⟨a, ha, haa⟩ := exists_of_forall₂ h a' ha'
  exact haa.isReadable (has a ha)

/-- The copy of a flat payload is read under the same name. -/
theorem Payload.Copied.flat {moved : Option OffsetMap} {p p' : Payload}
    (h : Payload.Copied S G moved p p') (hp : p.IsReadable) :
    p'.promote.IsReadable ∧ p'.promote.name? = p.name? := by
  cases h with
  | code | record => exact hp.elim
  | stackMapTable h =>
    refine ⟨fun frame hframe => ?_, rfl⟩
    obtain ⟨frame, -, rfl⟩ := List.mem_map.1 hframe
    exact frame.isReadable_promote
  | visibleAnnotations h | invisibleAnnotations h => exact ⟨isReadable_annotations h hp, rfl⟩
  | visibleParameterAnnotations h | invisibleParameterAnnotations h =>
    refine ⟨fun as' has' => ?_, rfl⟩
    obtain ⟨as, has, haa⟩ := exists_of_forall₂ h as' has'
    exact isReadable_annotations haa (hp as has)
  | annotationDefault h => exact ⟨h.isReadable hp, rfl⟩
  | _ => exact ⟨trivial, rfl⟩

end Payloads

/-! ## Attributes -/

/-- Code is read back if its instructions and its attributes are. -/
theorem CodeBody.readsBack {p : Pool} {inner : Attribute → List Bytes → Bytes → Prop}
    {body : CodeBody}
    (hcode : ∀ a, Code.reassemble body.instructions = .ok a →
      Instruction.decode p a.bytes = .ok body.instructions ∧ a.bytes.length < 0x10000)
    (hinner : ReadsBack (SpellsTable inner) Attribute.encodeTable body.attributes) :
    ReadsBack (CodeBody.SpellsWith p inner) CodeBody.encode body := by
  intro out ho
  obtain ⟨maxStack, maxLocals, instructions, handlers, attributes⟩ := body
  rw [CodeBody.encode_eq] at ho
  obtain ⟨a, ha, ho⟩ := exceptBind_eq_ok.1 ho
  obtain ⟨count, hcount, ho⟩ := exceptBind_eq_ok.1 ho
  obtain ⟨table, htable, ho⟩ := exceptBind_eq_ok.1 ho
  obtain ⟨hh, rfl⟩ := Table.count_eq_ok.1 hcount
  obtain ⟨rest, hrest⟩ := hinner table htable
  obtain ⟨hd, hlen⟩ := hcode a ha
  exact ⟨a.bytes :: rest, a.bytes, rest, table, by omega, hd, hh, hrest, rfl,
    (Except.ok.inj ho).symm⟩

section Levels

variable {S G : ImportSource} {inner inner' : Attribute → List Bytes → Bytes → Prop}

/-- Copies of attributes that are read by `inner` are read back by `inner'`. -/
def CopiesReadBack (S G : ImportSource) (inner inner' : Attribute → List Bytes → Bytes → Prop) :
    Prop :=
  ∀ moved a a' codes used, Attribute.Copied S G moved a a' → inner a codes used →
    ReadsBack inner' Attribute.encode a'.promote

variable (h : CopiesReadBack S G inner inner')

include h

theorem CopiesReadBack.all {moved : Option OffsetMap} {as as' : List Attribute}
    (hc : Attribute.AllCopied S G moved as as') (hs : ∀ a ∈ as, ∃ codes used, inner a codes used) :
    ∀ a ∈ promoteAttributes as', ReadsBack inner' Attribute.encode a := by
  induction as generalizing as' with
  | nil =>
    cases hc
    simp [promoteAttributes]
  | cons a as ih =>
    obtain ⟨⟨codes, used, ha⟩, hs⟩ := List.forall_mem_cons.1 hs
    cases hc with
    | leftOut _ hc => exact ih hc hs
    | copied hcopied hc =>
      rw [promoteAttributes]
      exact List.forall_mem_cons.2 ⟨h moved a _ codes used hcopied ha, ih hc hs⟩

theorem CopiesReadBack.table {moved : Option OffsetMap} {as as' : List Attribute}
    (hc : Attribute.AllCopied S G moved as as') {codes : List Bytes} {used : Bytes}
    (hs : SpellsTable inner as codes used) :
    ReadsBack (SpellsTable inner') Attribute.encodeTable (promoteAttributes as') :=
  .attributes (h.all hc hs.exists_of_mem)

theorem CopiesReadBack.code {b b' : CodeBody} (hc : CodeBody.Copied S G b b') {codes : List Bytes}
    {used : Bytes} (hs : b.SpellsWith S.pool inner codes used) :
    ReadsBack (CodeBody.SpellsWith G.pool inner') CodeBody.encode b'.promote := by
  obtain ⟨hcode, hhandlers, hinner⟩ := hc
  obtain ⟨code, rest, v, -, hd, -, hv, -, -⟩ := hs
  exact CodeBody.readsBack (fun a ha => Code.decode_of_copied hd hcode ha) (h.table hinner hv)

theorem CopiesReadBack.components {cs cs' : List Component}
    (hc : List.Forall₂ (Component.Copied S G) cs cs') {codes : List Bytes} {used : Bytes}
    (hs : GathersAll (Component.SpellsWith inner) cs codes used) :
    ∀ c ∈ promoteComponents cs', ReadsBack (Component.SpellsWith inner') Component.encode c := by
  induction hc generalizing codes used with
  | nil => simp [promoteComponents]
  | cons hc _ ih =>
    obtain ⟨-, -, hinner⟩ := hc
    obtain ⟨ps, qs, u, v, ⟨w, hw, -⟩, hv, -, -⟩ := hs
    rw [promoteComponents]
    refine List.forall_mem_cons.2 ⟨fun out ho => ?_, ih hv⟩
    obtain ⟨table, htable, ho⟩ := exceptBind_eq_ok.1 ho
    obtain ⟨codes', hcodes⟩ := h.table hinner hw table htable
    exact ⟨codes', table, hcodes, (Except.ok.inj ho).symm⟩

theorem CopiesReadBack.payload {moved : Option OffsetMap} {p p' : Payload}
    (hc : Payload.Copied S G moved p p') {name : String} {codes : List Bytes} {used : Bytes}
    (hs : p.SpellsWith S.pool inner name codes used) :
    ReadsBack (fun p => p.SpellsWith G.pool inner' name) Payload.encode p'.promote := by
  have flat (hn : p.name? = some name) (hr : p.IsReadable) :
      ReadsBack (fun p => p.SpellsWith G.pool inner' name) Payload.encode p'.promote := by
    intro out ho
    obtain ⟨hr', hn'⟩ := hc.flat hr
    exact Payload.spellsWith_flat (hn'.trans hn) hr' ho
  cases hc with
  | code hb =>
    obtain ⟨rfl, hs⟩ := hs
    intro out ho
    obtain ⟨codes', hcodes⟩ := h.code hb hs out ho
    exact ⟨codes', rfl, hcodes⟩
  | record hcs =>
    obtain ⟨rfl, -, v, hv, -⟩ := hs
    intro out ho
    rw [Payload.promote, Payload.encode_record] at ho
    obtain ⟨codes', hcodes⟩ := ReadsBack.table .recordComponents (h.components hcs hv) out ho
    exact ⟨codes', rfl, hcodes⟩
  | _ => exact flat hs.1 hs.2.1

end Levels

/-- An attribute is read back if its payload is. -/
theorem Attribute.readsBack {p : Pool} {depth : Nat} {index : UInt16} {name : String}
    {payload : Payload} (hn : p.text index = .ok name)
    (h : ReadsBack (fun q => q.SpellsWith p (Attribute.Spells p depth) name) Payload.encode
      payload) : ReadsBack (Attribute.Spells p (depth + 1)) Attribute.encode ⟨index, payload⟩ := by
  intro out ho
  rw [Attribute.encode] at ho
  obtain ⟨v, hv, ho⟩ := exceptBind_eq_ok.1 ho
  obtain ⟨codes, hcodes⟩ := h v hv
  unfold Attribute.frame at ho
  split at ho
  · rename_i hl
    cases ho
    exact ⟨codes, name, v, hn, hl, hcodes, rfl⟩
  · cases ho

/-- A payload that holds no attributes, under its name. -/
def Attribute.IsTable (G : ImportSource) (a : Attribute) : Prop :=
  ∃ name, G.Denotes a.name (.text name) ∧ a.payload.name? = some name ∧ a.payload.IsReadable

theorem Attribute.IsTable.mono {S G : ImportSource} (hle : S ≤ G) {a : Attribute}
    (h : a.IsTable S) : a.IsTable G := by
  obtain ⟨name, hname, hpayload⟩ := h
  exact ⟨name, hname.mono hle, hpayload⟩

theorem Attribute.IsTable.readsBack {G : ImportSource} {a : Attribute} (h : a.IsTable G)
    (depth : Nat) : ReadsBack (Attribute.Spells G.pool (depth + 1)) Attribute.encode a := by
  obtain ⟨index, payload⟩ := a
  obtain ⟨name, hname, hpayload, hreadable⟩ := h
  exact Attribute.readsBack (Pool.text_eq_ok.2 (ImportSource.denotes_text_iff.1 hname))
    fun out ho => Payload.spellsWith_flat hpayload hreadable ho

/-- What is written for a copy of an attribute is read as the copy. -/
theorem Attribute.copiesReadBack (S G : ImportSource) (depth : Nat) :
    CopiesReadBack S G (Attribute.Spells S.pool depth) (Attribute.Spells G.pool depth) := by
  induction depth with
  | zero => exact fun _ _ _ _ _ _ hs => hs.elim
  | succ depth ih =>
    intro moved a a' codes used hc hs
    obtain ⟨hname, hp⟩ := hc
    obtain ⟨name, v, hn, -, hs, -⟩ := hs
    have hn' := Pool.text_eq_ok.2 (hname.text (Pool.text_eq_ok.1 hn))
    rw [Attribute.promote]
    exact Attribute.readsBack hn' (ih.payload hp hs)

/-! ## Classes -/

/-- A member is read back if its attributes are. -/
theorem Member.readsBack {p : Pool} {depth : Nat} {m : Member}
    (h : ReadsBack (SpellsTable (Attribute.Spells p depth)) Attribute.encodeTable m.attributes) :
    ReadsBack (Member.Spells p depth) Member.encode m := by
  intro out ho
  obtain ⟨table, htable, ho⟩ := exceptBind_eq_ok.1 ho
  obtain ⟨codes, hcodes⟩ := h table htable
  exact ⟨codes, table, hcodes, (Except.ok.inj ho).symm⟩

theorem Member.Copied.readsBack {S G : ImportSource} {m m' : Member} (h : m.Copied S G m')
    {depth : Nat} {codes : List Bytes} {used : Bytes} (hs : m.Spells S.pool depth codes used) :
    ReadsBack (Member.Spells G.pool depth) Member.encode m'.promote := by
  obtain ⟨v, hv, -⟩ := hs
  exact Member.readsBack ((Attribute.copiesReadBack S G depth).table h.attributes hv)

theorem Member.legible {p : Pool} {depth : Nat} {m : Member}
    (h : ∀ a ∈ m.attributes, Legible (Attribute.Spells p depth) Attribute.encode a) :
    Legible (Member.Spells p depth) Member.encode m := by
  obtain ⟨as, halike, hback⟩ := Legible.all h
  refine ⟨{ m with attributes := as }, ?_, Member.readsBack (.attributes hback)⟩
  unfold Member.encode
  rw [Attribute.encodeTable_eq, Attribute.encodeTable_eq, concatM_congr halike, halike.length_eq]

namespace ClassFile

variable {c : ClassFile} {depth : Nat}
  (hfields : ∀ m ∈ c.fields, ReadsBack (Member.Spells c.pool depth) Member.encode m)
  (hmethods : ∀ m ∈ c.methods, ReadsBack (Member.Spells c.pool depth) Member.encode m)
  (hattributes : ∀ a ∈ c.attributes, ReadsBack (Attribute.Spells c.pool depth) Attribute.encode a)

include hfields hmethods hattributes

theorem readsBack_body : ReadsBack (fun c => c.SpellsBody depth) encodeBody c := by
  intro out ho
  have hi : c.interfaces.length < 0x10000 := by
    obtain ⟨v, hv, -⟩ := exceptBind_eq_ok.1 ho
    exact (Table.encode_eq_ok.1 hv).1
  rw [encodeBody_eq c hi] at ho
  obtain ⟨tables, htables, ho⟩ := exceptBind_eq_ok.1 ho
  obtain ⟨members, attributes, hmembers, ha, rfl⟩ := append_eq_ok.1 htables
  obtain ⟨fields, methods, hf, hm, rfl⟩ := append_eq_ok.1 hmembers
  obtain ⟨fieldCodes, hf⟩ := ReadsBack.table .fields hfields fields hf
  obtain ⟨methodCodes, hm⟩ := ReadsBack.table .methods hmethods methods hm
  obtain ⟨attributeCodes, ha⟩ := ReadsBack.attributes hattributes attributes ha
  cases ho
  exact ⟨_, fields, methods, attributes, fieldCodes, methodCodes, attributeCodes, hi, hf, hm, ha,
    rfl, by simp⟩

/-- A valid class whose parts are read back is read back. -/
theorem read_of_encode (hvalid : c.IsValid) (hpool : c.pool.IsReadable) {out : Bytes}
    (he : c.encode = .ok out) : read out = .ok c := by
  rw [encode_eq] at he
  obtain ⟨pool, hp, he⟩ := exceptBind_eq_ok.1 he
  obtain ⟨body, hb, he⟩ := exceptBind_eq_ok.1 he
  obtain ⟨texts, hp⟩ := Pool.spells_of_encode hpool hp
  obtain ⟨codes, hb⟩ := readsBack_body hfields hmethods hattributes body hb
  cases he
  exact read_eq_ok_iff.2 ⟨texts, codes, hvalid, pool, body, hp, hb.of_length_le (by simp), rfl⟩

omit hfields hmethods in
/-- A valid class whose members are read, in whatever form, is read in a form that is written
alike. -/
theorem exists_read_of_encode
    (hfields : ∀ m ∈ c.fields, Legible (Member.Spells c.pool depth) Member.encode m)
    (hmethods : ∀ m ∈ c.methods, Legible (Member.Spells c.pool depth) Member.encode m)
    (hvalid : c.IsValid) (hpool : c.pool.IsReadable) {out : Bytes} (he : c.encode = .ok out) :
    ∃ c', read out = .ok c' ∧ c'.encode = .ok out := by
  obtain ⟨fields, hf, hfields⟩ := Legible.all hfields
  obtain ⟨methods, hm, hmethods⟩ := Legible.all hmethods
  have hbody : encodeBody { c with fields, methods } = c.encodeBody := by
    unfold encodeBody
    rw [concatM_congr hf, concatM_congr hm, hf.length_eq, hm.length_eq]
  have he' : encode { c with fields, methods } = .ok out := by
    rw [encode_eq, hbody]
    exact c.encode_eq.symm.trans he
  have hvalid' : IsValid { c with fields, methods } := { hvalid with }
  exact ⟨_, read_of_encode (c := { c with fields, methods }) hfields hmethods hattributes hvalid'
    hpool he', he'⟩

end ClassFile

end JvmClass
