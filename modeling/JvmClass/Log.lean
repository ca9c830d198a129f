/-!
# Log

What a reading or a building reports on its way. A log is off unless it is asked for, and one
that is off records nothing.
-/

namespace JvmClass

inductive Event where
  | keptUnknown (name : String)
  | field (name descriptor : String)
  | method (name descriptor : String)
  | parsed (name : String) (major minor : UInt16) (slots fields methods : Nat)
  | building (name : String) (fields methods : Nat)
  | emitting (name descriptor : String)
  | dropped (name : String) (length : Nat)

/-- The level and the text of an event. -/
def Event.line : Event → String
  | keptUnknown name => "TRACE Keeping unknown attribute " ++ name ++ " as raw bytes"
  | field name descriptor => "TRACE Field " ++ name ++ " " ++ descriptor
  | method name descriptor => "TRACE Method " ++ name ++ descriptor
  | parsed name major minor slots fields methods =>
    "DEBUG Parsed " ++ name ++ " (version " ++ toString major.toNat ++ "." ++
      toString minor.toNat ++ ", " ++ toString slots ++ " pool slots, " ++ toString fields ++
      " fields, " ++ toString methods ++ " methods)"
  | building name fields methods =>
    "DEBUG Building " ++ name ++ " (" ++ toString fields ++ " fields, " ++ toString methods ++
      " methods)"
  | emitting name descriptor => "TRACE Emitting method " ++ name ++ " " ++ descriptor
  | dropped name length =>
    "WARN Dropping attribute " ++ name ++ " (" ++ toString length ++
      " bytes): its payload may refer to the old constant pool"

/-- The events so far, the latest first, or `none` when nobody listens. -/
structure Log where
  events? : Option (List Event)

namespace Log

def off : Log := ⟨none⟩

def on : Log := ⟨some []⟩

def isOn (log : Log) : Bool := log.events?.isSome

def record (log : Log) (e : Event) : Log :=
  ⟨log.events?.map (e :: ·)⟩

@[simp]
theorem record_off (e : Event) : off.record e = off := rfl

/-- The lines of a log, in the order in which they were recorded. -/
def lines (log : Log) : List String :=
  (log.events?.getD []).reverse.map Event.line

end Log

end JvmClass
