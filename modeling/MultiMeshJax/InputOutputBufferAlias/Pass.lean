import MultiMeshJax.Foundation.SortedMatching
import MultiMeshJax.Hlo.Program
import MultiMeshJax.Sharding.SpmdShape

/-! `MpmdInputOutputBufferAlias`: the parameters whose buffers are donated to outputs. -/
namespace MultiMeshJax
namespace InputOutputBufferAlias

open StatusOr

/-- An output of the entry computation: `{}`, or `{index}` where it returns a tuple. -/
abbrev ShapeIndex := List ℕ

/-- The outputs with the parameters whose buffers they get. -/
structure AliasConfig where
  aliases : List (ShapeIndex × ℕ) := []
  outputs_nodup : (aliases.map Prod.fst).Nodup := by simp
  deriving DecidableEq, Repr

namespace AliasConfig

def parameterHasAlias (config : AliasConfig) (paramNumber : ℕ) : Bool :=
  (config.aliases.map Prod.snd).contains paramNumber

def outputHasAlias (config : AliasConfig) (outputIndex : ShapeIndex) : Bool :=
  (config.aliases.map Prod.fst).contains outputIndex

def setUpAlias (config : AliasConfig) (outputIndex : ShapeIndex) (paramNumber : ℕ) :
    StatusOr AliasConfig :=
  if h : config.outputHasAlias outputIndex then error "output already has an alias"
  else return {
    aliases := config.aliases ++ [(outputIndex, paramNumber)]
    outputs_nodup := by
      have hfresh : outputIndex ∉ config.aliases.map Prod.fst := by
        simpa [outputHasAlias] using h
      rw [List.map_append, List.nodup_append]
      refine ⟨config.outputs_nodup, by simp, ?_⟩
      intro a ha b hb heq
      have hb : b = outputIndex := by simpa using hb
      exact hfresh (hb ▸ heq ▸ ha) }

end AliasConfig

/-- The aliases, and the parameters that may be donated. -/
structure State where
  aliasConfig : AliasConfig := {}
  donors : List ℕ
  deriving DecidableEq, Repr

namespace State

def parameterIsBufferDonor (st : State) (paramNumber : ℕ) : Bool := st.donors.contains paramNumber

def setUpAlias (st : State) (outputIndex : ShapeIndex) (paramNumber : ℕ) : StatusOr State := do
  let aliasConfig ← st.aliasConfig.setUpAlias outputIndex paramNumber
  return { st with aliasConfig := aliasConfig }

def removeBufferDonor (st : State) (paramNumber : ℕ) : State :=
  { st with donors := st.donors.filter (· != paramNumber) }

end State

/-- What the pass reads: the entry computation, whether the shape of its result is dynamic, and
the parameters and the outputs that are temporaries. The byte sizes and the final check of the
aliases are those of the compiler's library. -/
structure Input where
  entry : HloComputation
  partitioning : Partitioning
  byteSizeOf : Shape → ℕ
  verify : AliasConfig → Bool := fun _ => true
  outputIsDynamic : Bool := false
  temporaryParamIndices : List ℕ := []
  temporaryRootIndices : List ℕ := []

structure DonorEntry where
  paramNumber : ℕ
  shapeSize : ℕ
  deriving DecidableEq, Repr

structure DoneeEntry where
  index : ShapeIndex
  shapeSize : ℕ
  deriving DecidableEq, Repr

section build

variable (input : Input) (matchTemps : Bool)

def collectDonor (st : State) (donors : List DonorEntry) (i : HloInstruction) :
    StatusOr (List DonorEntry) :=
  match i.opcode with
  | .parameter paramNumber =>
    if i.shape.isTuple then error "cannot perform MPMD input/output aliasing with arg tuples"
    else if st.aliasConfig.parameterHasAlias paramNumber then return donors
    else if !st.parameterIsBufferDonor paramNumber then return donors
    else do
      let subshape ← input.partitioning.getSpmdShape i
      if matchTemps == input.temporaryParamIndices.contains paramNumber then
        return donors ++ [⟨paramNumber, input.byteSizeOf subshape⟩]
      else return donors
  | _ => return donors

def collectDonors (st : State) : StatusOr (List DonorEntry) :=
  input.entry.instructions.foldlM (collectDonor input matchTemps st) []

/-- The outputs with their sizes on one device. -/
def outputs : StatusOr (List DoneeEntry) := do
  let root ← input.entry.rootInstruction
  let spmdShape ← input.partitioning.getSpmdShape root
  match spmdShape with
  | .tuple shapes => return shapes.zipIdx.map fun entry =>
      ⟨[entry.2], input.byteSizeOf (.array entry.1.1 entry.1.2)⟩
  | .array _ _ => return [⟨[], input.byteSizeOf spmdShape⟩]

/-- A single output counts as the first one. -/
def isTemporaryRoot (index : ShapeIndex) : Bool :=
  input.temporaryRootIndices.contains (index.head?.getD 0)

def collectDonees (st : State) : StatusOr (List DoneeEntry) := do
  let outputs ← outputs input
  return outputs.filter fun donee => matchTemps == isTemporaryRoot input donee.index &&
    !st.aliasConfig.outputHasAlias donee.index

/-- The current donor and donee match. -/
def alias_ (donor : DonorEntry) (donee : DoneeEntry) (st : State) : StatusOr State := do
  let st ← st.setUpAlias donee.index donor.paramNumber
  return st.removeBufferDonor donor.paramNumber

/-- The loop over the donees while the donor stays, `next` being the loop from the next donor
on. -/
def matchDonor (donor : DonorEntry)
    (next : List DoneeEntry → State × Bool → StatusOr (State × Bool)) :
    List DoneeEntry → State × Bool → StatusOr (State × Bool)
  | [], st => return st
  | donee :: donees, st =>
    if donee.shapeSize < donor.shapeSize then next (donee :: donees) st
    else if donor.shapeSize < donee.shapeSize then matchDonor donor next donees st
    else do
      let aliased ← alias_ donor donee st.1
      next donees (aliased, true)

/-- The two pointers move through the donors and the donees. -/
def matchDonors : List DonorEntry → List DoneeEntry → State × Bool → StatusOr (State × Bool)
  | [], _, st => return st
  | donor :: donors, donees, st => matchDonor donor (matchDonors donors) donees st

def build (st : State) : StatusOr (State × Bool) :=
  if input.outputIsDynamic then return (st, false)
  else do
    let donors ← collectDonors input matchTemps st
    let donees ← collectDonees input matchTemps st
    matchDonors (donors.insertionSort fun a b => b.shapeSize ≤ a.shapeSize)
      (donees.insertionSort fun a b => b.shapeSize ≤ a.shapeSize) (st, false)

end build

section bestMatch

variable (input : Input)

def isDonorParameter (st : State) (operand : HloInstruction) : Bool :=
  match operand.opcode with
  | .parameter n => !input.temporaryParamIndices.contains n &&
      !st.aliasConfig.parameterHasAlias n && st.parameterIsBufferDonor n
  | _ => false

def operandsOf (i : HloInstruction) : List HloInstruction :=
  i.operands.filterMap input.entry.instruction

def kMaxVisits : ℕ := 1000

/-- The first donor of the same shape, breadth first. -/
def search (st : State) (root : HloInstruction) : ℕ → List HloInstruction → Option HloInstruction
  | 0, _ => none
  | _, [] => none
  | visits + 1, operand :: toVisit =>
    if isDonorParameter input st operand && operand.shape == root.shape then some operand
    else search st root visits (toVisit ++ operandsOf input operand)

def tupledArgs : Bool :=
  match input.entry.parameterInstructions with
  | [parameter] => parameter.shape.isTuple
  | _ => false

def setUpParameterAlias (st : State) (outputIndex : ShapeIndex) (parameter : HloInstruction) :
    StatusOr State :=
  match parameter.opcode with
  | .parameter n => st.setUpAlias outputIndex n
  | _ => fatal "not a parameter"

def findBestMatch (outputIndex : ShapeIndex) (root : HloInstruction) (st : State) :
    StatusOr State :=
  if st.aliasConfig.outputHasAlias outputIndex then return st
  else if outputIndex.any input.temporaryRootIndices.contains then return st
  else if tupledArgs input then error "MultiMesh buffer donation does not suppoort tupled args"
  else if isDonorParameter input st root then setUpParameterAlias st outputIndex root
  else
    match search input st root kMaxVisits (operandsOf input root) with
    | some operand => setUpParameterAlias st outputIndex operand
    | none => return st

/-- The outputs that are matched one by one, with the instructions that are taken for them. -/
def matchedOutputs : StatusOr (List (ShapeIndex × HloInstruction)) := do
  let root ← input.entry.rootInstruction
  if root.shape.isTuple then
    return (operandsOf input root).zipIdx.map fun entry => ([entry.2], entry.1)
  else return [([], root)]

def run (st : State) : StatusOr (State × Bool) := do
  let matched ← matchedOutputs input
  let st ← matched.foldlM (fun st entry => findBestMatch input entry.1 entry.2 st) st
  let (st, matchedParams) ← build input true st
  let (st, matchedTemps) ← build input false st
  if input.verify st.aliasConfig then return (st, matchedParams || matchedTemps)
  else error "the aliases are not consistent"

end bestMatch

end InputOutputBufferAlias
end MultiMeshJax
