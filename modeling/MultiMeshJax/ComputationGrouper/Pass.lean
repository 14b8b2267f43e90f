import MultiMeshJax.ColorDfs
import MultiMeshJax.ComputationFusion.FuseCalls
import MultiMeshJax.Foundation.PostorderSearch
import MultiMeshJax.Hlo.Removal

/-! The pass that groups the instructions of one colour into the computations of tasks. -/
namespace MultiMeshJax
namespace ComputationGrouper

open StatusOr PostorderSearch HloComputation
open ComputationFusion (Builder append tupleShape)

/-- Of the library: the post order of a computation, and which loops have a backend config. -/
structure Config where
  postOrder : HloComputation → List ℕ
  hasBackendConfig : ℕ → Bool

/-- `DerivedInput`, which is known of the instructions that have properties. -/
abbrev Properties := ℕ → Option Bool

section predicates

variable (config : Config) (properties : Properties) (c : HloComputation)

def isRoot (i : HloInstruction) : StatusOr Bool := do
  let root ← c.rootInstruction
  if root.opcode = .tuple then return root.operands.contains i.id
  else return i.id == c.root

def operandInstruction (i : HloInstruction) (index : ℕ) : StatusOr HloInstruction := do
  let operand ← elementAt i.operands index
  c.getInstruction operand

def isAliasedGetTupleElement (i : HloInstruction) : StatusOr Bool := do
  let operand ← operandInstruction c i 0
  return operand.opcode == .optimizationBarrier || operand.opcode == .tuple

def isMicrobatchLoop (i : HloInstruction) : Bool :=
  match i.opcode with
  | .whileLoop _ => config.hasBackendConfig i.id
  | _ => false

/-- The instruction is never in a task and always an operand of one. -/
def isAlwaysTaskOperand (i : HloInstruction) : StatusOr Bool :=
  match i.opcode with
  | .parameter _ => return true
  | .getTupleElement _ => do
    let operand ← operandInstruction c i 0
    return isMicrobatchLoop config operand || operand.isParameter
  | .customCall target =>
    return target == kCustomCallSliceOffset || target == kCustomCallDummyOperation
  | _ => return false

/-- The instruction is recomputed in every task that needs it. -/
def replicateInstruction (i : HloInstruction) : StatusOr Bool := do
  let derivedInput ← deref "no properties assigned" (properties i.id)
  if derivedInput || i.color.isNone || i.isCustomCall kCustomCallArgumentRecolor then return true
  else
    match i.opcode with
    | .optimizationBarrier => return true
    | .tuple => return true
    | .getTupleElement _ => isAliasedGetTupleElement c i
    | _ => return false

def includeDirectlyInBuilder (i : HloInstruction) : StatusOr Bool := do
  let replicate ← replicateInstruction properties c i
  if replicate then return false
  else do
    let always ← isAlwaysTaskOperand config c i
    return !always

def includeIndirectlyInBuilder (i : HloInstruction) : StatusOr Bool := do
  let replicate ← replicateInstruction properties c i
  if replicate then do
    let always ← isAlwaysTaskOperand config c i
    return !always
  else return false

end predicates

/-- A task that is being put together, or a loop, which has tasks of its own. The clone map of
the builder has the clone of each instruction and parameter of the task; `parameters`, `roots`
and `instructionDfs` are instructions of the computation that is grouped. -/
structure BuildContext where
  name : String := ""
  color : String := "none"
  builder : Builder := { nextId := 0 }
  parameters : List ℕ := []
  roots : List ℕ := []
  instructionDfs : List ℕ := []
  callInstruction : Option ℕ := none

section add

variable (config : Config) (properties : Properties) (c : HloComputation)

/-- The operands that come before an instruction into the task. -/
def replicatedOperands (added operands : List ℕ) : StatusOr (List ℕ) :=
  operands.foldlM (fun toVisit operand => do
    if added.contains operand then return toVisit
    else do
      let i ← c.getInstruction operand
      let included ← includeIndirectlyInBuilder config properties c i
      return if included then toVisit ++ [operand] else toVisit) []

/-- Nothing is counted. An operand that is in the tree is pushed once more, and is popped. -/
def visitReplicated (added : List ℕ) (_ : Unit) (next : ℕ) : StatusOr (Expansion Unit ℕ) := do
  let i ← c.getInstruction next
  let operands ← replicatedOperands config properties c added i.operands
  return .push () operands

/-- Every instruction pushes its operands once. -/
def searchFuel : ℕ := (c.instructions.map fun i => 2 * i.operands.length + 2).sum + 2

def addReplicatedOperandDfs (ctx : BuildContext) (i : HloInstruction) : StatusOr BuildContext := do
  let toVisit ← replicatedOperands config properties c ctx.instructionDfs i.operands
  match ← search (visitReplicated config properties c ctx.instructionDfs)
      (searchFuel c + i.operands.length) toVisit.reverse (fun _ => none) [] () with
  | none => return ctx
  | some tree => return { ctx with instructionDfs := ctx.instructionDfs ++ tree }

def addInstruction (ctx : BuildContext) (i : HloInstruction) : StatusOr BuildContext :=
  if ctx.instructionDfs.contains i.id then return ctx
  else do
    let ctx ← addReplicatedOperandDfs config properties c ctx i
    return { ctx with instructionDfs := ctx.instructionDfs ++ [i.id] }

/-- `AddRoot`, of the context with this number. -/
def addRoot (builders : List BuildContext) (k root : ℕ) : StatusOr (List BuildContext) := do
  let ctx ← elementAt builders k
  let i ← c.getInstruction root
  if i.shape.isTuple then fatal "tuple root not supported yet"
  else if ctx.roots.contains root then return builders
  else return builders.set k { ctx with roots := ctx.roots ++ [root] }

end add

/-- The tasks so far, the one that each instruction is assigned to, and what stands for an
instruction outside of its task. -/
structure Grouping where
  builders : List BuildContext := []
  builderAssignments : ℕ → Option ℕ := fun _ => none
  gteRootClones : ℕ → Option ℕ := fun _ => none
  lastColor : Option String := none
  currentBuilder : Option ℕ := none

section visit

variable (config : Config) (properties : Properties) (c : HloComputation) (isLoop : Bool)

/-- The operand is a root of its task. -/
def visitRootTupleRecolor (st : Grouping) (i : HloInstruction) : StatusOr Grouping := do
  let operand ← elementAt i.operands 0
  match st.builderAssignments operand with
  | none => error "instruction was not assigned to a builder"
  | some k => do
    let builders ← addRoot c st.builders k operand
    return { st with builders := builders }

def addLoopInput (st : Grouping) (operand : ℕ) : StatusOr Grouping :=
  match st.builderAssignments operand with
  | none => return st
  | some k => do
    let builders ← addRoot c st.builders k operand
    return { st with builders := builders }

/-- What is taken out of the loop stands for itself. -/
def visitMicrobatchLoop (st : Grouping) (i : HloInstruction) : StatusOr Grouping := do
  let number := st.builders.length
  let input ← operandInstruction c i 0
  let st ← input.operands.foldlM (addLoopInput c)
    { st with builders := st.builders ++ [{ callInstruction := some i.id }] }
  let users := (c.users i.id).map HloInstruction.id
  return { st with
    builderAssignments := fun id =>
      if id = i.id ∨ id ∈ users then some number else st.builderAssignments id
    gteRootClones := fun id => if id ∈ users then some id else st.gteRootClones id
    lastColor := none }

/-- A colour that is not the last one starts a task. -/
def startTask (st : Grouping) (color : String) : Grouping :=
  if st.lastColor = some color then st
  else { st with
    builders := st.builders ++
      [{ name := if isLoop then color ++ "_loop" else color, color := color }]
    currentBuilder := some st.builders.length }

def visitDirectly (st : Grouping) (i : HloInstruction) : StatusOr Grouping :=
  match i.color with
  | none => error "instruction has no color"
  | some color => do
    let st := startTask isLoop st color
    let k ← deref "no builder" st.currentBuilder
    let ctx ← elementAt st.builders k
    let ctx ← addInstruction config properties c ctx i
    return { st with
      builders := st.builders.set k ctx
      builderAssignments := Function.update st.builderAssignments i.id (some k)
      lastColor := some color }

def visitInstruction (st : Grouping) (i : HloInstruction) : StatusOr Grouping :=
  if i.isCustomCall kCustomCallRootTupleRecolor then visitRootTupleRecolor c st i
  else if isMicrobatchLoop config i then visitMicrobatchLoop c st i
  else do
    let direct ← includeDirectlyInBuilder config properties c i
    if direct then visitDirectly config properties c isLoop st i else return st

def addAlwaysTaskOperand (st : Grouping) (i : HloInstruction) : StatusOr Grouping := do
  let always ← isAlwaysTaskOperand config c i
  return if always then
    { st with gteRootClones := Function.update st.gteRootClones i.id (some i.id) } else st

/-- The instructions are assigned to tasks in the order of `ColorSortedPostorder`. -/
def assignTasks : StatusOr Grouping := do
  let st ← c.instructions.foldlM (addAlwaysTaskOperand config c) {}
  let order ← (ColorDfs.colorSortedPostorder c).getD (fatal "the search goes on")
  order.foldlM (visitInstruction config properties c isLoop) st

end visit

section build

variable (c : HloComputation) (builderAssignments : ℕ → Option ℕ)

def parameterClone (ctx : BuildContext) (operand : HloInstruction) : HloInstruction where
  id := 0
  opcode := .parameter ctx.parameters.length
  shape := operand.shape
  sharding := operand.sharding
  color := some ctx.color

/-- An operand that has no clone becomes a parameter, and a root where it comes from. -/
def cloneOperand (k : ℕ) (builders : List BuildContext) (operand : ℕ) :
    StatusOr (List BuildContext) := do
  let ctx ← elementAt builders k
  match ctx.builder.cloneMap operand with
  | some _ => return builders
  | none => do
    let i ← c.getInstruction operand
    let builders := builders.set k { ctx with
      builder := { ctx.builder.add (parameterClone ctx i) with
        cloneMap := Function.update ctx.builder.cloneMap operand (some ctx.builder.nextId) }
      parameters := ctx.parameters ++ [operand] }
    match builderAssignments operand with
    | some producer => addRoot c builders producer operand
    | none => return builders

def cloneOf (b : Builder) (operand : ℕ) : StatusOr ℕ :=
  deref "operand has no clone" (b.cloneMap operand)

def cloneWithNewOperands (k : ℕ) (builders : List BuildContext) (i : HloInstruction) :
    StatusOr (List BuildContext) := do
  let builders ← i.operands.foldlM (cloneOperand c builderAssignments k) builders
  let ctx ← elementAt builders k
  let newOperands ← i.operands.mapM (cloneOf ctx.builder)
  return builders.set k { ctx with
    builder := { ctx.builder.add { i with operands := newOperands, controlPredecessors := [] } with
      cloneMap := Function.update ctx.builder.cloneMap i.id (some ctx.builder.nextId) } }

def cloneInstruction (k : ℕ) (builders : List BuildContext) (id : ℕ) :
    StatusOr (List BuildContext) := do
  let i ← c.getInstruction id
  let root ← isRoot c i
  if root then do
    let builders ← addRoot c builders k id
    cloneWithNewOperands c builderAssignments k builders i
  else cloneWithNewOperands c builderAssignments k builders i

def setNextId (nextId : ℕ) (ctx : BuildContext) : BuildContext :=
  { ctx with builder := { ctx.builder with nextId := nextId } }

/-- `Build`, of the context with this number; the next id of the module goes on. -/
def build (k : ℕ) (builders : List BuildContext) (nextId : ℕ) :
    StatusOr (List BuildContext × ℕ) := do
  let ctx ← elementAt builders k
  let builders ← ctx.instructionDfs.foldlM (cloneInstruction c builderAssignments k)
    (builders.set k (setNextId nextId ctx))
  let ctx ← elementAt builders k
  return (builders, ctx.builder.nextId)

end build

/-- The called computations of the module, the id that the next instruction gets, and the
properties. -/
structure Module where
  called : List HloComputation
  nextId : ℕ
  properties : Properties

/-- A computation whose tasks are built. -/
structure Building where
  module : Module
  builders : List BuildContext
  gteRootClones : ℕ → Option ℕ

section buildAll

variable (c : HloComputation) (builderAssignments : ℕ → Option ℕ)
  (groupBody : Module → ℕ → StatusOr Module)

/-- A loop has its body grouped instead. -/
def buildContext (st : Building) (k : ℕ) : StatusOr Building := do
  let ctx ← elementAt st.builders k
  match ctx.callInstruction with
  | some loop => do
    let i ← c.getInstruction loop
    match i.opcode with
    | .whileLoop body => do
      let m ← groupBody st.module body
      return { st with
        module := m
        gteRootClones := fun id =>
          if id ∈ (c.users loop).map HloInstruction.id then some id else st.gteRootClones id }
    | _ => fatal "no called computation"
  | none => do
    let (builders, nextId) ← build c builderAssignments k st.builders st.module.nextId
    return { st with builders := builders, module := { st.module with nextId := nextId } }

end buildAll

/-- A computation in which calls take the place of the tasks. -/
structure Replacing where
  computation : HloComputation
  module : Module
  gteRootClones : ℕ → Option ℕ

section replace

def addToComputation (st : Replacing) (i : HloInstruction) : Replacing :=
  { st with
    computation := append st.computation { i with id := st.module.nextId }
    module := { st.module with nextId := st.module.nextId + 1 } }

def callOperand (st : Replacing) (param : ℕ) : StatusOr ℕ := do
  let i ← st.computation.getInstruction param
  if i.isParameter then return param
  else
    match st.gteRootClones param with
    | some clone => return clone
    | none => error "no intermediate root to use as a parameter"

/-- A root that is not taken out of another task is taken out of the call. -/
def addOutput (ctx : BuildContext) (call : ℕ) (st : Replacing) (root : (ℕ × ℕ) × ℕ) :
    StatusOr Replacing :=
  if (st.gteRootClones root.1.1).isSome then return st
  else do
    let matchingRoot ← deref "no such root"
      (ctx.builder.instructions.find? fun i => i.id == root.1.2)
    let clone := st.module.nextId
    let entry := (st.module.properties root.1.1).getD false
    let added := addToComputation st { id := 0, opcode := .getTupleElement root.2, operands := [call]
                                       shape := matchingRoot.shape, color := some ctx.color
                                       sharding := matchingRoot.sharding }
    return { added with
      module := { added.module with
        properties := Function.update
          (Function.update added.module.properties root.1.1 (some entry)) clone (some entry) }
      gteRootClones := Function.update added.gteRootClones root.1.1 (some clone) }

def rootClone (b : Builder) (root : ℕ) : StatusOr ℕ :=
  match b.cloneMap root with
  | some clone => return clone
  | none => error "root for task has not been cloned"

/-- The computation of the task, with the tuple of its roots. -/
def taskComputation (b : Builder) (roots : List ℕ) : HloComputation × Shape :=
  let shape := tupleShape (roots.map b.shapeOf)
  (⟨(b.add { id := 0, opcode := .tuple, operands := roots, shape := shape }).instructions, b.nextId⟩,
    shape)

def addEmbeddedComputation (st : Replacing) (task : HloComputation) : Replacing :=
  { st with
    module := { st.module with
      called := st.module.called ++ [task]
      nextId := st.module.nextId + 1 } }

def taskCall (ctx : BuildContext) (number : ℕ) (parameters : List ℕ) (shape : Shape) :
    HloInstruction where
  id := 0
  opcode := .call number
  operands := parameters
  shape := shape
  color := some ctx.color

def replaceWithCall (st : Replacing) (ctx : BuildContext) : StatusOr Replacing :=
  if ctx.callInstruction.isSome || ctx.roots.isEmpty then return st
  else do
    let roots ← ctx.roots.mapM (rootClone ctx.builder)
    let task := taskComputation { ctx.builder with nextId := st.module.nextId } roots
    let added := addEmbeddedComputation st task.1
    let parameters ← ctx.parameters.mapM (callOperand added)
    let call := taskCall ctx st.module.called.length parameters task.2
    (ctx.roots.zip roots).zipIdx.foldlM (addOutput ctx added.module.nextId)
      (addToComputation added call)

def replaceRoot (gteRootClones : ℕ → Option ℕ) (c : HloComputation) (root : ℕ) :
    StatusOr HloComputation := do
  let clone ← deref "no clone" (gteRootClones root)
  let i ← c.getInstruction root
  tryRemoveInstruction (c.replaceUses root clone) i

/-- `ReplaceRootsWithCallOutputs` -/
def replaceRootsWithCallOutputs (gteRootClones : ℕ → Option ℕ) (c : HloComputation)
    (ctx : BuildContext) : StatusOr HloComputation :=
  if ctx.callInstruction.isSome then return c
  else ctx.roots.foldlM (replaceRoot gteRootClones) c

end replace

section cleanUp

variable (config : Config)

def removeUnusedInstruction (c : HloComputation) (id : ℕ) : StatusOr HloComputation := do
  let i ← c.getInstruction id
  if id ≠ c.root ∧ c.users id = [] ∧ i.isParameter = false then c.tryRemoveInstruction i
  else return c

def removeUnusedInstructions (c : HloComputation) : StatusOr HloComputation :=
  (config.postOrder c).reverse.foldlM removeUnusedInstruction c

/-- The operand takes the place of a mark, and its sharding. -/
def applyReshard (c : HloComputation) (id : ℕ) : StatusOr HloComputation := do
  let i ← c.getInstruction id
  if i.isCustomCall kCustomCallArgumentRecolor then do
    let operand ← elementAt i.operands 0
    let c := c.mapInstructions fun j => if j.id = operand then { j with sharding := i.sharding } else j
    tryRemoveInstruction (c.replaceUses id operand) i
  else return c

def applyInterTaskReshards (called : List HloComputation) (i : HloInstruction) :
    StatusOr (List HloComputation) :=
  match i.opcode with
  | .call n => do
    let comp ← elementAt called n
    if i.color.isNone then error "call does not have a color"
    else do
      let comp ← (config.postOrder comp).foldlM applyReshard comp
      return called.set n comp
  | _ => return called

end cleanUp

section group

variable (config : Config)

/-- `GroupComputationIntoTasks`, loops being grouped by `groupBody`. -/
def groupComputation (groupBody : Module → ℕ → StatusOr Module) (isLoop : Bool) (m : Module)
    (c : HloComputation) : StatusOr (Module × HloComputation) := do
  let grouping ← assignTasks config m.properties c isLoop
  let building ← (List.range grouping.builders.length).foldlM
    (buildContext c grouping.builderAssignments groupBody)
    ⟨m, grouping.builders, grouping.gteRootClones⟩
  let replacing ← building.builders.foldlM replaceWithCall ⟨c, building.module, building.gteRootClones⟩
  let c ← building.builders.foldlM (replaceRootsWithCallOutputs replacing.gteRootClones)
    replacing.computation
  let c ← removeUnusedInstructions config c
  let called ← c.instructions.foldlM (applyInterTaskReshards config) replacing.module.called
  return ({ replacing.module with called := called }, c)

/-- `nesting` bounds how deeply loops are in each other. -/
def groupBody : ℕ → Module → ℕ → StatusOr Module
  | 0, _, _ => fatal "the computations call each other in a cycle"
  | nesting + 1, m, n => do
    let c ← elementAt m.called n
    let (m, c) ← groupComputation config (groupBody nesting) true m c
    return { m with called := m.called.set n c }

/-- What is left of a mark in the entry computation is on a parameter. -/
def dropReshard (c : HloComputation) (id : ℕ) : StatusOr HloComputation := do
  let i ← c.getInstruction id
  if i.isCustomCall kCustomCallArgumentRecolor then do
    let operand ← operandInstruction c i 0
    if operand.isParameter then tryRemoveInstruction (c.replaceUses id operand.id) i
    else error "orphaned reshard operation in entry computation does not have parameter operand"
  else return c

def run (nesting : ℕ) (m : Module) (entry : HloComputation) :
    StatusOr (Module × HloComputation) := do
  let (m, c) ← groupComputation config (groupBody config nesting) false m entry
  let c ← (config.postOrder c).foldlM dropReshard c
  return (m, c)

end group

end ComputationGrouper
end MultiMeshJax
