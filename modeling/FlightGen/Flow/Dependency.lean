import FlightGen.Flow.Basic
import FlightGen.Graph

/-! Which node of an activity has to come before which. Beside the references and
edges of the model, whoever uses an object waits for the writes to it that do not in
turn depend on the use. -/

namespace FlightGen

/-- The outlets whose values an action uses. -/
def Action.consumed : Action → List Outlet
  | opaqueAction _ _ inputs _ => inputs.filterMap (·.source)
  | call _ arguments => arguments.map (·.source)
  | read object _ => [object]
  | write object _ value => [object, value]
  | parameter _ _ _ source => source.toList
  | _ => []

namespace Flow

variable (f : Flow)

/-- Values before their uses, forks before their branches, inputs before their joins. -/
def nodeEdges (node : Nat) : List (Nat × Nat) :=
  let action := f.action node
  action.consumed.map (·.node, node) ++
    match action with
    | .fork branches => branches.map (node, ·)
    | .join inputs => inputs.map (·, node)
    | _ => []

/-- Inputs come before and outputs after all other nodes. -/
def isParameterEdge (edge : Nat × Nat) : Bool :=
  (f.activity.isParameter .input edge.1 && !f.activity.isParameter .input edge.2) ||
    (f.activity.isParameter .output edge.2 && !f.activity.isParameter .output edge.1)

def parameterEdges : List (Nat × Nat) :=
  let nodes := List.range f.size
  (nodes.flatMap fun a => nodes.map (a, ·)).filter f.isParameterEdge

/-- The dependencies that the model states. -/
def statedEdges : List (Nat × Nat) :=
  (List.range f.size).flatMap f.nodeEdges ++ f.activity.edges ++ f.parameterEdges

def statedGraph : Graph :=
  .ofEdges f.size f.statedEdges

/-- A use of objects, known by their roots. One that reads a feature is indifferent to
writes to others. -/
structure Use where
  node : Nat
  feature : Option String
  roots : List Nat

def use? (node : Nat) : Except ModelError (Option Use) :=
  match f.action node with
  | .read object feature => do return some ⟨node, some feature, [← f.root object]⟩
  | .call _ arguments => do
    return some ⟨node, none, ← arguments.mapM fun a => f.root a.source⟩
  | .parameter .output _ _ (some source) => do return some ⟨node, none, [← f.root source]⟩
  | _ => .ok none

def uses : Except ModelError (List Use) := do
  return (← (List.range f.size).mapM f.use?).filterMap id

/-- Whether a use sees the effect of a write. -/
def Use.concerns (use : Use) (write : Write) : Bool :=
  write.root ∈ use.roots && use.feature.all (· = write.feature) && write.node ≠ use.node

/-- Orders a write before a use, unless the write already has to come after it. -/
def orderUse (write : Write) (g : Graph) (use : Use) : Graph :=
  if use.concerns write && !g.reaches use.node write.node then
    g.insert (write.node, use.node)
  else g

/-- All dependencies. Writes are ordered in turn, so that the one declared first goes
first where two exclude each other. -/
def graph : Except ModelError Graph := do
  let uses ← f.uses
  let writes ← f.writes
  return writes.foldl (fun g write => uses.foldl (orderUse write) g) f.statedGraph

/-- No write may be forced before the node that produced its object. -/
def checkWrite (g : Graph) (write : Write) : Except ModelError Unit :=
  if g.reaches write.node write.root then
    .error (.orderViolation (f.nodePath write.node) (f.activity.nodeId write.root))
  else .ok ()

/-- The order in which the nodes are carried out. -/
def order : Except ModelError (List Nat) := do
  let g ← f.graph
  (← f.writes).forM (f.checkWrite g)
  match g.order with
  | .ok nodes => return nodes
  | .error stuck => .error (.cyclicDependency f.path (stuck.map f.activity.nodeId))

end Flow

end FlightGen
