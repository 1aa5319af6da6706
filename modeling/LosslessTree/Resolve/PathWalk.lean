import LosslessTree.Node.Trace

/-!
# `Resolve.PathWalk` — walks that know where they are

A strategy is called like a visitor, but instead of the key of an item it is given the path of the
item from the root. `Strategy.visitor` turns a strategy into a visitor that keeps the path beside the
strategy's own state: entering an item appends its key, leaving it removes the key again. A text of a
composite has no key, so the path that goes with it is that of the composite.

Hooks that may fail work on a state that is either still good or already lost. `attempt` lifts such a
hook: once the state is lost it stays so, and every further call asks to halt.
-/

namespace LosslessTree

variable {σ ε : Type}

/-- Calls made by a walk that keeps the path of the current item. -/
structure Strategy (σ : Type) where
  onEnter : Path → Node → σ → σ × Flow := fun _ _ s => (s, .proceed)
  onLeaf : Path → String → σ → σ × Flow := fun _ _ s => (s, .proceed)
  onLeave : Path → Node → σ → σ × Flow := fun _ _ s => (s, .proceed)

/-- The state of a strategy and the path of the current item. -/
structure Tracked (σ : Type) where
  path : Path
  state : σ

namespace Strategy

/-- The visitor that keeps the path for a strategy. -/
def visitor (strategy : Strategy σ) : Visitor (Tracked σ) where
  enter item key t :=
    let path := t.path ++ key.toList
    let (state, flow) := strategy.onEnter path item t.state
    (⟨path, state⟩, flow)
  leaf text _ t :=
    let (state, flow) := strategy.onLeaf t.path text t.state
    (⟨t.path, state⟩, flow)
  leave item key t :=
    let (state, flow) := strategy.onLeave t.path item t.state
    (⟨if key.isSome then t.path.dropLast else t.path, state⟩, flow)

/-- The state in which a walk of `tree` leaves the strategy. -/
def run (strategy : Strategy σ) (tree : Node) (s : σ) : σ :=
  (tree.walk strategy.visitor ⟨Path.root, s⟩).1.state

end Strategy

/-- A hook that may fail, on a state that may be lost. -/
def attempt (hook : σ → Except ε (σ × Flow)) : Except ε σ → Except ε σ × Flow
  | .error e => (.error e, .halt)
  | .ok s =>
    match hook s with
    | .ok (s, flow) => (.ok s, flow)
    | .error e => (.error e, .halt)

/-! ## Recording -/

/-- One call of a strategy: the path it was given, and the item or the text. -/
inductive PathEvent where
  | enter (path : Path) (item : Node)
  | leaf (path : Path) (text : String)
  | leave (path : Path) (item : Node)
  deriving DecidableEq

namespace PathEvent

/-- The hook that an event calls. -/
def hook : PathEvent → Hook
  | .enter _ _ => .enter
  | .leaf _ _ => .leaf
  | .leave _ _ => .leave

/-- The path that a call was given. -/
def path : PathEvent → Path
  | .enter path _ => path
  | .leaf path _ => path
  | .leave path _ => path

/-- Writes down an event and answers it. -/
def record (halt : Option HaltAt) (e : PathEvent) (earlier : List PathEvent) :
    List PathEvent × Flow :=
  (earlier ++ [e], HaltAt.answer halt e.hook (earlier.countP (·.hook = e.hook)))

end PathEvent

/-- A strategy that writes down its calls. -/
def pathRecorder (halt : Option HaltAt) : Strategy (List PathEvent) where
  onEnter path item := PathEvent.record halt (.enter path item)
  onLeaf path text := PathEvent.record halt (.leaf path text)
  onLeave path item := PathEvent.record halt (.leave path item)

end LosslessTree
