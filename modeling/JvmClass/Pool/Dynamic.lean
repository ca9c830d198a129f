import JvmClass.Pool

/-!
# Dynamic constants

A dynamic constant is computed by a bootstrap method from static arguments, which may be dynamic
constants again. No constant may depend on itself, so the entries are searched depth first for a
way back to one whose arguments are still being visited.
-/

namespace JvmClass.Pool

inductive Visit where
  | unseen
  | active
  | done
  deriving DecidableEq, Inhabited

/-- What is left to do: follow a reference to an argument, or leave an entry whose arguments are
all followed. -/
inductive Task where
  | follow (argument : UInt16)
  | leave (entry : UInt16)

/-- The outcome of working off tasks until an unseen dynamic entry turns up. -/
inductive Progress where
  | finished (visits : Array Visit)
  | enter (entry : UInt16) (tasks : List Task) (visits : Array Visit)
  | cycle (entry : UInt16)

/-- The arguments of a dynamic entry's bootstrap method. -/
def dynamicArguments (p : Pool) (bootstrap : Array BootstrapMethod) (index : UInt16) :
    List UInt16 :=
  match p.get? index with
  | some (.dynamic method _) => ((bootstrap[method.toNat]?).map (·.arguments)).getD []
  | _ => []

def isDynamicAt (p : Pool) (index : UInt16) : Bool :=
  (p.get? index).any Constant.isDynamic

def workOff (p : Pool) : List Task → Array Visit → Progress
  | [], visits => .finished visits
  | .leave entry :: tasks, visits => workOff p tasks (visits.setIfInBounds entry.toNat .done)
  | .follow argument :: tasks, visits =>
    if p.isDynamicAt argument then
      match visits[argument.toNat]? with
      | some .active => .cycle argument
      | some .unseen => .enter argument tasks visits
      | _ => workOff p tasks visits
    else workOff p tasks visits

/-- Works off all tasks, entering at most `budget` entries on the way. Each entry is entered once,
so a budget of all slots is never used up. -/
def explore (p : Pool) (bootstrap : Array BootstrapMethod) :
    (budget : Nat) → List Task → Array Visit → Except Error (Array Visit)
  | 0, _, visits => .ok visits
  | budget + 1, tasks, visits =>
    match p.workOff tasks visits with
    | .finished visits => .ok visits
    | .cycle entry => .error (.malformedConstant entry .dependsOnItself)
    | .enter entry tasks visits =>
      explore p bootstrap budget
        ((p.dynamicArguments bootstrap entry).map .follow ++ .leave entry :: tasks)
        (visits.setIfInBounds entry.toNat .active)

/-- Checks that no dynamic entry depends on itself. -/
def checkAcyclic (p : Pool) (bootstrap : Array BootstrapMethod) : Except Error Unit := do
  let unseen := Array.replicate (p.size + 1) Visit.unseen
  let roots := p.usable.filter fun (_, c) => c.isDynamic
  let _ ← roots.foldlM
    (fun visits (root, _) => p.explore bootstrap (p.size + 1) [.follow root] visits) unseen

/-- Checks the bootstrap method table of the class that owns the pool. -/
def validateBootstrap (p : Pool) (methods : List BootstrapMethod) : Except Error Unit := do
  let bootstrap := methods.toArray
  p.usable.forM fun
    | (index, .dynamic method _) | (index, .invokeDynamic method _) =>
      if method.toNat < bootstrap.size then .ok ()
      else .error (.malformedConstant index (.noSuchBootstrap method))
    | _ => .ok ()
  methods.forM fun m => do
    p.expect 0 m.method .methodHandle
    m.arguments.forM fun argument => p.expect 0 argument .bootstrapArgument
  p.checkAcyclic bootstrap

end JvmClass.Pool
