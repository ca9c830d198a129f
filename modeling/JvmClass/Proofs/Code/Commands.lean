import JvmClass.Proofs.Code.Growth
import Mathlib.Data.List.Induction

/-!
# What commands leave behind

A command that succeeds adds one thing to an emission: an instruction, a label or a binding of one,
or a row of a table (`Emission.Step`). After a run of commands each table has a row for each command
that is for it, in their order, made from the pool that the command found (`Tabulates`), and a
label stands for the instruction at which it was bound last (`BindsTo`).
-/

namespace JvmClass

namespace Command

/-- What a command adds to an emission. -/
inductive Purpose where
  | instruction | label | binding | line | localVariable | handler
  deriving DecidableEq

def purpose : Command → Purpose
  | .newLabel => .label
  | .bind _ => .binding
  | .lineNumber _ => .line
  | .localVariable .. => .localVariable
  | .handler .. => .handler
  | _ => .instruction

/-- How many of the commands are for this. -/
def tally (purpose : Purpose) (commands : List Command) : Nat :=
  commands.countP (·.purpose = purpose)

theorem tally_concat (p : Purpose) (commands : List Command) (c : Command) :
    tally p (commands ++ [c]) = tally p commands + if c.purpose = p then 1 else 0 := by
  simp [tally, List.countP_append, List.countP_singleton]

end Command

namespace Code

open Command (Purpose tally tally_concat)
open Emit

/-! ## Bindings -/

/-- The commands bind a label, and do so for the last time when this many instructions are emitted.
A label can be bound once there is one of its number. -/
def BindsTo (commands : List Command) (label : Label) (index : Nat) : Prop :=
  ∃ before after, commands = before ++ .bind label :: after ∧
    label.toNat < tally .label before ∧ .bind label ∉ after ∧ index = tally .instruction before

theorem BindsTo.concat {commands : List Command} {label : Label} {index : Nat} {c : Command}
    (h : BindsTo commands label index) (hc : c ≠ .bind label) :
    BindsTo (commands ++ [c]) label index := by
  obtain ⟨before, after, rfl, hlabel, hlast, hindex⟩ := h
  refine ⟨before, after ++ [c], by simp, hlabel, ?_, hindex⟩
  rw [List.mem_append, List.mem_singleton]
  rintro (h | rfl)
  · exact hlast h
  · exact hc rfl

theorem bound_eq_ok {labels : Array (Option Nat)} {label : Label} {index : Nat} :
    bound labels label = .ok index ↔ labels[label.toNat]? = some (some index) := by
  unfold bound
  split <;> simp_all

/-! ## Single commands -/

/-- A request to this pool gives the index. -/
def Answers (pool : GrowingPool) (request : Grow UInt16) (index : UInt16) : Prop :=
  ∃ grown, request pool = .ok index grown

/-- The load of a constant, by the short form where the index fits in a byte. -/
def constantAt (index : UInt16) : Instruction :=
  .constant (if index.toNat < 0x100 then .ldc else .ldcW) index

/-- The command emits the instruction, with labels for targets, if it finds this pool. -/
inductive Emits (pool : GrowingPool) : Command → Instruction → Prop
  | op {o} : Emits pool (.op o) (.simple o)
  | load {kind slot} : Emits pool (.load kind slot) (localAccess (loadForms kind) slot)
  | store {kind slot} : Emits pool (.store kind slot) (localAccess (storeForms kind) slot)
  | increment {slot delta wide} :
      (wide = true ↔ 0x100 ≤ slot.toNat ∨ fitsByte delta.toInt = false) →
      Emits pool (.increment slot delta) (.increment slot delta wide)
  | smallInt {value o} : smallInt? value = some o → Emits pool (.pushInt value) (.simple o)
  | byteInt {value} : smallInt? value = none → fitsByte value.toInt = true →
      Emits pool (.pushInt value) (.push .bipush value.toInt16)
  | shortInt {value} : fitsByte value.toInt = false → -0x8000 ≤ value.toInt →
      value.toInt < 0x8000 → Emits pool (.pushInt value) (.push .sipush value.toInt16)
  | longInt {value index} : value.toInt < -0x8000 ∨ 0x8000 ≤ value.toInt →
      Answers pool (.integer value) index → Emits pool (.pushInt value) (constantAt index)
  | loadInt {value index} : Answers pool (.integer value) index →
      Emits pool (.loadInt value) (constantAt index)
  | loadFloat {bits index} : Answers pool (.float bits) index →
      Emits pool (.loadFloat bits) (constantAt index)
  | loadLong {value index} : Answers pool (.long value) index →
      Emits pool (.loadLong value) (.constant .ldc2W index)
  | loadDouble {bits index} : Answers pool (.double bits) index →
      Emits pool (.loadDouble bits) (.constant .ldc2W index)
  | loadString {text index} : Answers pool (.stringRef text) index →
      Emits pool (.loadString text) (constantAt index)
  | loadClass {name index} : Answers pool (.classRef name) index →
      Emits pool (.loadClass name) (constantAt index)
  | field {access m index} : Answers pool (.fieldRef m) index →
      Emits pool (.field access m) (.field (fieldOpcode access) index)
  | call {kind m index} : Answers pool (.methodRef m) index →
      Emits pool (.call kind m) (.invoke (callOpcode kind) index)
  | callInterface {m type index} : MethodType.parse m.descriptor = .ok type →
      Answers pool (.interfaceMethodRef m) index →
      Emits pool (.callInterface m)
        (.invokeInterface index (type.parameterSlots + 1).toUInt8)
  | useClass {use name index} : Answers pool (.classRef name) index →
      Emits pool (.useClass use name) (.typed (classOpcode use) index)
  | newArray {element} : Emits pool (.newArray element) (.newArray element)
  | branch {o label} : Emits pool (.branch o label) (.branch o label)
  | tableSwitch {low high default targets} : tableHigh? low targets.length = some high →
      Emits pool (.tableSwitch low default targets) (.tableSwitch default low high targets)
  | lookupSwitch {default cases} : Emits pool (.lookupSwitch default cases)
      (.lookupSwitch default (cases.mergeSort fun a b => a.1 ≤ b.1))

/-- The command declares the handler if it finds this pool. -/
inductive DeclaresHandler (pool : GrowingPool) : Command → LabelledHandler → Prop
  | catching {start stop handler name index} : Answers pool (.classRef name) index →
      DeclaresHandler pool (.handler start stop handler (some name)) ⟨start, stop, handler, index⟩
  | catchingAll {start stop handler} :
      DeclaresHandler pool (.handler start stop handler none) ⟨start, stop, handler, 0⟩

/-- The command declares the variable if it finds this pool. -/
inductive DeclaresVariable (pool : GrowingPool) : Command → LabelledVariable → Prop
  | mk {slot name descriptor start stop index grown index'} :
      Grow.text name pool = .ok index grown → Answers grown (.text descriptor) index' →
      DeclaresVariable pool (.localVariable slot name descriptor start stop)
        ⟨slot, index, index', start, stop⟩

theorem Emits.purpose_eq {pool : GrowingPool} {c : Command} {i : Instruction} (h : Emits pool c i) :
    c.purpose = .instruction := by
  cases h <;> rfl

theorem DeclaresHandler.purpose_eq {pool : GrowingPool} {c : Command} {h : LabelledHandler}
    (hd : DeclaresHandler pool c h) : c.purpose = .handler := by
  cases hd <;> rfl

theorem DeclaresVariable.purpose_eq {pool : GrowingPool} {c : Command} {v : LabelledVariable}
    (hd : DeclaresVariable pool c v) : c.purpose = .localVariable := by
  cases hd
  rfl

/-- What a command that succeeds makes of an emission. -/
inductive Emission.Step (e : Emission) : Command → Emission → Prop
  | instruction {c i pool} : Emits e.pool c i →
      Step e c { e with pool := pool, instructions := e.instructions.push i }
  | label : Step e .newLabel { e with labels := e.labels.push none }
  | binding {label} : Step e (.bind label)
      { e with labels := e.labels.setIfInBounds label.toNat (some e.instructions.size) }
  | line {line} : Step e (.lineNumber line)
      { e with lines := e.lines.push (e.instructions.size, line) }
  | localVariable {c v pool} : DeclaresVariable e.pool c v →
      Step e c { e with pool := pool, locals := e.locals.push v }
  | handler {c h pool} : DeclaresHandler e.pool c h →
      Step e c { e with pool := pool, handlers := e.handlers.push h }

section Step

variable {e e' : Emission} {u : Unit} {c : Command}

theorem step_of_instruction {i : Instruction} (h : instruction i e = .ok u e')
    (hi : Emits e.pool c i) : e.Step c e' := by
  cases h
  exact .instruction hi

theorem step_of_request {x : Grow UInt16} {make : UInt16 → Instruction}
    (h : (do instruction (make (← grow x)) : Emit Unit) e = .ok u e')
    (hmake : ∀ index, Answers e.pool x index → Emits e.pool c (make index)) : e.Step c e' := by
  obtain ⟨index, e1, hgrow, h⟩ := bind_eq_ok.1 h
  obtain ⟨pool, hpool, rfl⟩ := grow_eq_ok.1 hgrow
  cases h
  exact .instruction (hmake index ⟨pool, hpool⟩)

theorem step_of_pushInt {value : Int32} (h : pushInt value e = .ok u e') :
    e.Step (.pushInt value) e' := by
  unfold pushInt at h
  cases hsmall : smallInt? value with
  | some o =>
    rw [hsmall] at h
    exact step_of_instruction h (.smallInt hsmall)
  | none =>
    rw [hsmall] at h
    dsimp only at h
    split at h
    · rename_i hbyte
      exact step_of_instruction h (.byteInt hsmall hbyte)
    · rename_i hbyte
      split at h
      · rename_i hshort
        exact step_of_instruction h (.shortInt (Bool.eq_false_iff.2 hbyte) hshort.1 hshort.2)
      · exact step_of_request h fun _ => .longInt (by omega)

theorem step_of_command (h : command c e = .ok u e') : e.Step c e' := by
  cases c with
  | op o => exact step_of_instruction h .op
  | load kind slot => exact step_of_instruction h .load
  | store kind slot => exact step_of_instruction h .store
  | increment slot delta => exact step_of_instruction h (.increment (by simp))
  | pushInt value => exact step_of_pushInt h
  | loadInt value => exact step_of_request h fun _ => .loadInt
  | loadFloat bits => exact step_of_request h fun _ => .loadFloat
  | loadLong value => exact step_of_request h fun _ => .loadLong
  | loadDouble bits => exact step_of_request h fun _ => .loadDouble
  | loadString text => exact step_of_request h fun _ => .loadString
  | loadClass name => exact step_of_request h fun _ => .loadClass
  | field access m => exact step_of_request h fun _ => .field
  | call kind m => exact step_of_request h fun _ => .call
  | callInterface m =>
    obtain ⟨type, e1, hparse, hrest⟩ := bind_eq_ok.1 h
    obtain ⟨htype, rfl⟩ := ofExcept_eq_ok.1 hparse
    exact step_of_request hrest fun _ => .callInterface htype
  | useClass use name => exact step_of_request h fun _ => .useClass
  | newArray element => exact step_of_instruction h .newArray
  | newLabel =>
    cases h
    exact .label
  | bind label =>
    cases h
    exact .binding
  | branch o label => exact step_of_instruction h .branch
  | tableSwitch low default targets =>
    cases hhigh : tableHigh? low targets.length with
    | some high =>
      simp only [command, hhigh] at h
      exact step_of_instruction h (.tableSwitch hhigh)
    | none =>
      simp only [command, hhigh] at h
      exact absurd h throw_ne_ok
  | lookupSwitch default cases => exact step_of_instruction h .lookupSwitch
  | lineNumber line =>
    cases h
    exact .line
  | localVariable slot name descriptor start stop =>
    obtain ⟨index, e1, hgrow, hrest⟩ := bind_eq_ok.1 h
    obtain ⟨grown, hname, rfl⟩ := grow_eq_ok.1 hgrow
    obtain ⟨index', e2, hgrow', hlast⟩ := bind_eq_ok.1 hrest
    obtain ⟨pool, hdescriptor, rfl⟩ := grow_eq_ok.1 hgrow'
    cases hlast
    exact .localVariable (.mk hname ⟨pool, hdescriptor⟩)
  | handler start stop handler catchType =>
    cases catchType with
    | some name =>
      obtain ⟨index, e1, hgrow, hrest⟩ := bind_eq_ok.1 h
      obtain ⟨pool, hclass, rfl⟩ := grow_eq_ok.1 hgrow
      cases hrest
      exact .handler (.catching ⟨pool, hclass⟩)
    | none =>
      cases h
      exact .handler .catchingAll

end Step

/-! ## Runs of commands -/

/-- A table has one row for each command with this purpose, in their order, and each row was made
by its command, behind the ones before it and from the pool they left. -/
inductive Tabulates {α : Type} (g : GrowingPool) (purpose : Purpose)
    (Makes : List Command → GrowingPool → Command → α → Prop) : List Command → List α → Prop
  | nil : Tabulates g purpose Makes [] []
  | row {commands rows c row e} : Tabulates g purpose Makes commands rows → c.purpose = purpose →
      commands.forM command (.start g) = .ok () e → Makes commands e.pool c row →
      Tabulates g purpose Makes (commands ++ [c]) (rows ++ [row])
  | skip {commands rows c} : Tabulates g purpose Makes commands rows → c.purpose ≠ purpose →
      Tabulates g purpose Makes (commands ++ [c]) rows

section Tabulates

variable {α : Type} {g : GrowingPool} {purpose : Purpose}
  {Makes : List Command → GrowingPool → Command → α → Prop} {commands : List Command}
  {rows : List α}

theorem Tabulates.length_eq (h : Tabulates g purpose Makes commands rows) :
    rows.length = tally purpose commands := by
  induction h with
  | nil => rfl
  | row _ hc _ _ ih => rw [List.length_append, ih, tally_concat, if_pos hc, List.length_singleton]
  | skip _ hc ih => rw [ih, tally_concat, if_neg hc, Nat.add_zero]

theorem Tabulates.exists_of_mem (h : Tabulates g purpose Makes commands rows) :
    ∀ row ∈ rows, ∃ before pool, ∃ c ∈ commands, Makes before pool c row := by
  induction h with
  | nil => simp
  | @row commands _ c _ _ _ _ _ hrow ih =>
    refine List.forall_mem_append.2 ⟨fun row hr => ?_, List.forall_mem_singleton.2 ?_⟩
    · obtain ⟨before, pool, c', hc', hmakes⟩ := ih row hr
      exact ⟨before, pool, c', List.mem_append_left _ hc', hmakes⟩
    · exact ⟨_, _, c, List.mem_append_right _ List.mem_cons_self, hrow⟩
  | skip _ _ ih =>
    intro row hr
    obtain ⟨before, pool, c, hc, hmakes⟩ := ih row hr
    exact ⟨before, pool, c, List.mem_append_left _ hc, hmakes⟩

end Tabulates

/-- What an emission holds after a run of commands from the pool `g`. -/
structure Emission.Records (g : GrowingPool) (commands : List Command) (e : Emission) : Prop where
  instructions : Tabulates g .instruction (fun _ pool c i => Emits pool c i) commands
    e.instructions.toList
  handlers : Tabulates g .handler (fun _ pool c h => DeclaresHandler pool c h) commands
    e.handlers.toList
  locals : Tabulates g .localVariable (fun _ pool c v => DeclaresVariable pool c v) commands
    e.locals.toList
  /-- A line is that of the next instruction. -/
  lines : Tabulates g .line (fun before _ c mark =>
    ∃ line, c = .lineNumber line ∧ mark = (tally .instruction before, line)) commands e.lines.toList
  labels : e.labels.size = tally .label commands
  bindings : ∀ label index, bound e.labels label = .ok index → BindsTo commands label index

namespace Emission.Records

variable {g : GrowingPool} {commands : List Command} {e e' : Emission}

theorem start (g : GrowingPool) : (Emission.start g).Records g [] := by
  refine ⟨.nil, .nil, .nil, .nil, rfl, fun label index h => ?_⟩
  cases bound_eq_ok.1 h

theorem size_instructions (h : e.Records g commands) :
    e.instructions.size = tally .instruction commands := by
  rw [← h.instructions.length_eq, Array.length_toList]

/-- A command that is no binding leaves the labels bound as they are. -/
theorem bindings_concat (h : e.Records g commands) {c : Command} (hc : c.purpose ≠ .binding)
    (label : Label) (index : Nat) (hb : bound e.labels label = .ok index) :
    BindsTo (commands ++ [c]) label index := by
  refine (h.bindings label index hb).concat ?_
  rintro rfl
  exact hc rfl

theorem step (h : e.Records g commands) (hrun : commands.forM command (.start g) = .ok () e)
    {c : Command} (hc : e.Step c e') : e'.Records g (commands ++ [c]) := by
  cases hc with
  | instruction hi =>
    have hp := hi.purpose_eq
    exact {
      instructions := by simpa using .row h.instructions hp hrun hi
      handlers := .skip h.handlers (by simp [hp])
      locals := .skip h.locals (by simp [hp])
      lines := .skip h.lines (by simp [hp])
      labels := by simp [tally_concat, hp, h.labels]
      bindings := h.bindings_concat (by simp [hp]) }
  | label =>
    exact {
      instructions := .skip h.instructions nofun
      handlers := .skip h.handlers nofun
      locals := .skip h.locals nofun
      lines := .skip h.lines nofun
      labels := by simp [tally_concat, Command.purpose, h.labels]
      bindings := fun label index hb => by
        -- The new label is not bound, so a bound one is among the others.
        have hget := bound_eq_ok.1 hb
        rw [Array.getElem?_push] at hget
        split at hget
        · cases hget
        · refine h.bindings_concat ?_ label index (bound_eq_ok.2 hget)
          exact nofun }
  | @binding label =>
    exact {
      instructions := .skip h.instructions nofun
      handlers := .skip h.handlers nofun
      locals := .skip h.locals nofun
      lines := .skip h.lines nofun
      labels := by simp [tally_concat, Command.purpose, h.labels]
      bindings := fun label' index hb => by
        have hget := bound_eq_ok.1 hb
        rw [Array.getElem?_setIfInBounds] at hget
        split at hget
        · rename_i hsame
          obtain rfl := UInt32.toNat.inj hsame
          split at hget
          · rename_i hlt
            cases hget
            exact ⟨commands, [], rfl, h.labels ▸ hlt, List.not_mem_nil, h.size_instructions⟩
          · cases hget
        · rename_i hother
          refine (h.bindings label' index (bound_eq_ok.2 hget)).concat ?_
          rintro ⟨⟩
          exact hother rfl }
  | @line line =>
    exact {
      instructions := .skip h.instructions nofun
      handlers := .skip h.handlers nofun
      locals := .skip h.locals nofun
      lines := by
        simpa using .row h.lines rfl hrun ⟨line, rfl, by rw [h.size_instructions]⟩
      labels := by simp [tally_concat, Command.purpose, h.labels]
      bindings := h.bindings_concat nofun }
  | localVariable hv =>
    have hp := hv.purpose_eq
    exact {
      instructions := .skip h.instructions (by simp [hp])
      handlers := .skip h.handlers (by simp [hp])
      locals := by simpa using .row h.locals hp hrun hv
      lines := .skip h.lines (by simp [hp])
      labels := by simp [tally_concat, hp, h.labels]
      bindings := h.bindings_concat (by simp [hp]) }
  | handler hh =>
    have hp := hh.purpose_eq
    exact {
      instructions := .skip h.instructions (by simp [hp])
      handlers := by simpa using .row h.handlers hp hrun hh
      locals := .skip h.locals (by simp [hp])
      lines := .skip h.lines (by simp [hp])
      labels := by simp [tally_concat, hp, h.labels]
      bindings := h.bindings_concat (by simp [hp]) }

end Emission.Records

theorem forM_concat_eq_ok {commands : List Command} {c : Command} {s e : Emission} :
    (commands ++ [c]).forM command s = .ok () e ↔
      ∃ t, commands.forM command s = .ok () t ∧ command c t = .ok () e := by
  have hforM : (commands ++ [c]).forM command =
      (do commands.forM command; command c; pure ()) := by
    exact List.forM_append
  rw [hforM, bind_eq_ok]
  constructor
  · rintro ⟨⟨⟩, t, ht, h⟩
    obtain ⟨⟨⟩, e', he, h⟩ := bind_eq_ok.1 h
    cases h
    exact ⟨t, ht, he⟩
  · rintro ⟨t, ht, h⟩
    exact ⟨(), t, ht, bind_eq_ok.2 ⟨(), e, h, rfl⟩⟩

theorem records_of_run {g : GrowingPool} {commands : List Command} {e : Emission}
    (h : commands.forM command (.start g) = .ok () e) : e.Records g commands := by
  induction commands using List.reverseRecOn generalizing e with
  | nil =>
    cases h
    exact .start g
  | append_singleton commands c ih =>
    obtain ⟨t, ht, hc⟩ := forM_concat_eq_ok.1 h
    exact (ih ht).step ht (step_of_command hc)

end Code

end JvmClass
