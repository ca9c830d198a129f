import JvmClass.Proofs.Codec.ClassFile

/-!
# Reading and writing

A class that was read is written as the bytes it was read from exactly if these are canonical:
the texts of the pool are stored as they are written, the bytes of the code that reading skips are
zeros, and no code is too long (`encode_eq_self_iff`). Where they are not, the class may be
written otherwise, but never as another class, and nothing but the size of a text or of code
keeps it from being written (`encode_of_read`).
-/

namespace JvmClass.ClassFile

/-- The file `bytes` of a class, with the stored bytes of the texts of its pool and with its code
arrays, at any depth of attributes. -/
def Layout (c : ClassFile) (bytes : Bytes) (texts codes : List Bytes) : Prop :=
  c.Spells bytes.length texts codes bytes

/-- A class is written and read back, or something about it is too long. -/
theorem Layout.encode_cases {c : ClassFile} {bytes : Bytes} {texts codes : List Bytes}
    (h : c.Layout bytes texts codes) :
    (∃ out, ((∀ code ∈ codes, code.length ≤ 65535) ∧ c.pool.TextsFit) ∧ c.encode = .ok out ∧
        read out = .ok c ∧ (out = bytes ↔ (∀ t ∈ texts, Pool.Reencodes t) ∧
          ∀ code ∈ codes, Code.IsCanonical c.pool code)) ∨
      ∃ e, ¬((∀ code ∈ codes, code.length ≤ 65535) ∧ c.pool.TextsFit) ∧ c.encode = .error e ∧
        ((∃ n, e = .textTooLong n) ∨ ∃ n, e = .tooManyEntries .code n) := by
  by_cases ht : c.pool.TextsFit
  · by_cases hc : ∀ code ∈ codes, code.length ≤ 65535
    · obtain ⟨out, he, hr, hiff⟩ := h.encode_eq_ok ht fun code hm => Nat.lt_succ_of_le (hc code hm)
      exact .inl ⟨out, ⟨hc, ht⟩, he, hr, hiff⟩
    · have hlong := hc
      simp only [Classical.not_forall] at hlong
      obtain ⟨code, hm, hl⟩ := hlong
      obtain ⟨n, hn⟩ := Spells.encode_of_long h ht hm fun hlt => hl (Nat.le_of_lt_succ hlt)
      exact .inr ⟨_, fun hfit => hc hfit.1, hn, .inr ⟨n, rfl⟩⟩
  · obtain ⟨n, hn⟩ := encode_of_textsUnfit ht
    exact .inr ⟨_, fun hfit => ht hfit.2, hn, .inl ⟨n, rfl⟩⟩

theorem encode_eq_self_iff_of_layout {c : ClassFile} {bytes : Bytes} {texts codes : List Bytes}
    (h : c.Layout bytes texts codes) :
    c.encode = .ok bytes ↔
      (∀ t ∈ texts, Pool.Reencodes t) ∧ ∀ code ∈ codes, Code.IsCanonical c.pool code := by
  rcases h.encode_cases with ⟨out, -, he, -, hiff⟩ | ⟨e, hunfit, he, -⟩
  · rw [he, Except.ok.injEq, hiff]
  · rw [he]
    refine iff_of_false nofun fun ⟨htexts, hcodes⟩ => hunfit ⟨fun code hm => ?_, ?_⟩
    · exact Nat.le_of_lt_succ (hcodes code hm).1
    · obtain ⟨-, pool, -, hp, -⟩ := h
      exact Pool.encode_ok_iff.1 ⟨pool, (Pool.encode_eq_iff hp).2 htexts⟩

/-- The bytes come back exactly if they are canonical. Only text in plain UTF-8 with a zero byte or
a four-byte sequence is not stored as it is written. -/
theorem encode_eq_self_iff {bytes : Bytes} {c : ClassFile} (h : read bytes = .ok c) :
    (∃ texts codes, c.Layout bytes texts codes) ∧
      ∀ texts codes, c.Layout bytes texts codes →
        (c.encode = .ok bytes ↔
          (∀ t ∈ texts, Pool.Reencodes t) ∧ ∀ code ∈ codes, Code.IsCanonical c.pool code) ∧
        ∀ t ∈ texts, Pool.Reencodes t ↔
          ¬((String.fromUTF8? t.toByteArray).isSome = true ∧ ∃ b ∈ t, Text.IsForeign b) := by
  refine ⟨read_eq_ok_iff.1 h, fun texts codes hl => ?_⟩
  refine ⟨encode_eq_self_iff_of_layout hl, fun t ht => ?_⟩
  obtain ⟨-, pool, -, hp, -⟩ := hl
  obtain ⟨e, he⟩ := hp.ofTextBytes? t ht
  exact Pool.reencodes_iff he

/-- A class with a text that is a single zero byte. -/
def withRawZero : Bytes :=
  [0xCA, 0xFE, 0xBA, 0xBE, 0, 0, 0, 49, 0, 4, 1, 0, 1, 0x41, 7, 0, 1, 1, 0, 1, 0, 0, 0x21, 0, 2, 0,
    0, 0, 0, 0, 0, 0, 0, 0, 0]

theorem read_withRawZero :
    read withRawZero =
      .ok ⟨0, 49, ⟨#[.utf8 "A", .classRef 1, .utf8 "\x00"]⟩, ⟨0x21⟩, 2, 0, [], [], [], []⟩ := by
  have hname : Constant.ofTextBytes? [0x41] = some (.utf8 "A") :=
    Constant.ofTextBytes?_eq_some_iff.2 (.inl ⟨_, rfl, .inr (by decide)⟩)
  have hzero : Constant.ofTextBytes? [0] = some (.utf8 "\x00") :=
    Constant.ofTextBytes?_eq_some_iff.2 (.inl ⟨_, rfl, .inr (by decide)⟩)
  have hfirst : Constant.Spells (.utf8 "A") [[0x41]] [1, 0, 1, 0x41] :=
    .inl ⟨_, by decide, hname, rfl, rfl⟩
  have hclass : Constant.Spells (.classRef 1) [] [7, 0, 1] := .inr ⟨rfl, trivial, rfl, rfl⟩
  have hlast : Constant.Spells (.utf8 "\x00") [[0]] [1, 0, 1, 0] :=
    .inl ⟨_, by decide, hzero, rfl, rfl⟩
  have hentries := GathersAll.cons hfirst (.cons hclass (.cons hlast .nil))
  have hpool : Pool.Spells ⟨#[.utf8 "A", .classRef 1, .utf8 "\x00"]⟩ [[0x41], [0]] _ :=
    ⟨_, _, rfl, hentries, by decide, rfl⟩
  refine read_of_tables ?_ hpool rfl rfl (.nil : SpellsTable (Member.Spells _ 0) _ _ _) .nil rfl
  exact
    { minMajor_le := by decide
      le_maxMajor := by decide
      pool := by cbv
      thisClass := ⟨"A", by cbv⟩
      superClass := fun h => absurd rfl h
      bootstrap := by cbv }

theorem encode_eq_self_iff_withRawZero :
    ∃ c, read withRawZero = .ok c ∧
      (∃ texts codes, c.Layout withRawZero texts codes) ∧
      ∀ texts codes, c.Layout withRawZero texts codes →
        (c.encode = .ok withRawZero ↔
          (∀ t ∈ texts, Pool.Reencodes t) ∧ ∀ code ∈ codes, Code.IsCanonical c.pool code) ∧
        ∀ t ∈ texts, Pool.Reencodes t ↔
          ¬((String.fromUTF8? t.toByteArray).isSome = true ∧ ∃ b ∈ t, Text.IsForeign b) :=
  ⟨_, read_withRawZero, encode_eq_self_iff read_withRawZero⟩

/-- Writing fails for size only, and never changes the class. -/
theorem encode_of_read {bytes : Bytes} {c : ClassFile} (h : read bytes = .ok c) :
    (∃ texts codes, c.Layout bytes texts codes) ∧
      (∀ texts codes, c.Layout bytes texts codes →
        ((∃ out, c.encode = .ok out) ↔
          (∀ code ∈ codes, code.length ≤ 65535) ∧ c.pool.TextsFit)) ∧
      (∀ out, c.encode = .ok out → read out = .ok c) ∧
      ∀ e, c.encode = .error e → (∃ n, e = .textTooLong n) ∨ ∃ n, e = .tooManyEntries .code n := by
  obtain ⟨texts, codes, hl⟩ := read_eq_ok_iff.1 h
  refine ⟨⟨texts, codes, hl⟩, fun texts codes hl => ?_, fun out he => ?_, fun e he => ?_⟩
  · rcases Layout.encode_cases hl with ⟨out, hfit, he, -⟩ | ⟨e, hunfit, he, -⟩
    · exact iff_of_true ⟨out, he⟩ hfit
    · rw [he]
      exact iff_of_false nofun hunfit
  · rcases Layout.encode_cases hl with ⟨out', -, he', hr, -⟩ | ⟨e, -, he', -⟩
    · rw [he] at he'
      cases he'
      exact hr
    · rw [he] at he'
      cases he'
  · rcases Layout.encode_cases hl with ⟨out', -, he', -⟩ | ⟨e, -, he', hcause⟩
    · rw [he] at he'
      cases he'
    · rw [he] at he'
      cases he'
      exact hcause

theorem encode_of_read_withRawZero :
    ∃ c, read withRawZero = .ok c ∧ (∃ texts codes, c.Layout withRawZero texts codes) ∧
      (∀ texts codes, c.Layout withRawZero texts codes →
        ((∃ out, c.encode = .ok out) ↔
          (∀ code ∈ codes, code.length ≤ 65535) ∧ c.pool.TextsFit)) ∧
      (∀ out, c.encode = .ok out → read out = .ok c) ∧
      ∀ e, c.encode = .error e → (∃ n, e = .textTooLong n) ∨ ∃ n, e = .tooManyEntries .code n :=
  ⟨_, read_withRawZero, encode_of_read read_withRawZero⟩

end JvmClass.ClassFile
