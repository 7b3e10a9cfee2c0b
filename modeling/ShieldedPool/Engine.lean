/-
The hash engine and the slot it is loaded into.  The engine has no state: its
parameters are fixed by the number of inputs.  What can be observed is whether
a slot was filled before it was used.
-/
import ShieldedPool.Failure
import ShieldedPool.Poseidon

namespace ShieldedPool

/-- The loaded hash engine.  There is one set of parameters, so any two loaded
engines are the same. -/
inductive Engine
  | loaded
deriving DecidableEq

/-- The hash of one to four field elements. -/
def Engine.hash (_ : Engine) (inputs : List Felt) : Except Failure Felt :=
  match Poseidon.hash? inputs with
  | some a => .ok a
  | none => .error (.inputCount inputs.length Poseidon.maxInputs)

/-- A slot for the engine, filled at most once. -/
structure EngineCell where
  engine? : Option Engine

namespace EngineCell

def empty : EngineCell := ⟨none⟩

def isFilled (cell : EngineCell) : Bool := cell.engine?.isSome

/-- Fill the slot unless it is filled, and hand the engine out. -/
def fill (cell : EngineCell) : Engine × EngineCell :=
  match cell.engine? with
  | some engine => (engine, cell)
  | none => (.loaded, ⟨some .loaded⟩)

/-- The engine of a filled slot; an empty one is not filled by asking. -/
def engine (cell : EngineCell) : Except Failure Engine :=
  match cell.engine? with
  | some engine => .ok engine
  | none => .error .engineNotReady

theorem engine_fill (cell : EngineCell) :
    cell.fill.2.engine = .ok cell.fill.1 := by
  cases cell with
  | mk engine? => cases engine? <;> rfl

end EngineCell

end ShieldedPool
