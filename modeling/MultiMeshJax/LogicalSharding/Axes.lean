import MultiMeshJax.JsonUtils

/-! Logical axes on an instruction: they are kept as a JSON text among its frontend attributes,
and adding attributes keeps those that are there. -/
namespace MultiMeshJax
namespace LogicalSharding

open StatusOr

/-- The names of the logical axes, for each dimension of the instruction. -/
abbrev LogicalShardingAxes := List (List String)

/-- The frontend attributes of an instruction. -/
abbrev FrontendAttributes := String → Option String

/-- `add_frontend_attributes`: a key that is there keeps its value. -/
def FrontendAttributes.add (attributes new : FrontendAttributes) : FrontendAttributes :=
  fun key => (attributes key).or (new key)

/-- The attributes that hold a text for the axes only. -/
def axesAttribute (axes : String) : FrontendAttributes :=
  fun key => if key = "axes" then some axes else none

def assignAxesText (attributes : FrontendAttributes) (axes : String) : FrontendAttributes :=
  attributes.add (axesAttribute axes)

def assignAxesIfUnassigned (attributes : FrontendAttributes) (axes : String) :
    FrontendAttributes :=
  attributes.add (axesAttribute axes)

def hasAssignedAxes (attributes : FrontendAttributes) : Bool :=
  (attributes "axes").isSome

def getAxesString (attributes : FrontendAttributes) : Option String :=
  attributes "axes"

section assignment

variable (attributes : FrontendAttributes) (axes : String)

theorem getAxesString_assignAxesText :
    getAxesString (assignAxesText attributes axes) =
      some ((getAxesString attributes).getD axes) := by
  simp only [getAxesString, assignAxesText, FrontendAttributes.add, axesAttribute, if_pos]
  cases attributes "axes" <;> rfl

theorem assignAxesText_of_ne {key : String} (h : key ≠ "axes") :
    assignAxesText attributes axes key = attributes key := by
  simp [assignAxesText, FrontendAttributes.add, axesAttribute, h]

/-- The assignment that should overwrite is the one that should not. -/
theorem assignAxesText_eq_assignAxesIfUnassigned :
    assignAxesText attributes axes = assignAxesIfUnassigned attributes axes := rfl

/-- An instruction that has axes is left as it is. -/
theorem assignAxesText_of_assigned {old : String} (h : getAxesString attributes = some old) :
    assignAxesText attributes axes = attributes := by
  funext key
  by_cases hkey : key = "axes"
  · subst hkey
    have hnew := getAxesString_assignAxesText attributes axes
    rw [h] at hnew
    exact hnew.trans h.symm
  · exact assignAxesText_of_ne attributes axes hkey

end assignment

def toJson : LogicalShardingAxes → Json :=
  Json.toJsonVector (Json.toJsonVector Json.string)

def readAxes : Json → Option LogicalShardingAxes :=
  Json.getTaskValueVector (Json.getTaskValueVector Json.getTaskValueString)

theorem decodes_axes : Json.Decodes readAxes toJson :=
  Json.decodes_vector (Json.decodes_vector Json.decodes_string)

/-- Expected to be a field 'axes' in a json dict. -/
def axesDocument (axes : LogicalShardingAxes) : Json :=
  .object [("axes", toJson axes)]

/-- A document of the fast writer ends with a line end, which is cut off. -/
def axesText (library : JsonLibrary) (axes : LogicalShardingAxes) : String :=
  .ofList (library.write (axesDocument axes)).toList.dropLast

/-- The axes in a text; a text that holds none cannot be dereferenced. -/
def parseAxes (library : JsonLibrary) (name text : String) : StatusOr LogicalShardingAxes :=
  match getJsonValue library text with
  | ok json =>
    match getTaskValue readAxes json name "axes" with
    | ok axes => return axes
    | _ => fatal "Attempting to fetch value instead of handling error"
  | _ => fatal "Attempting to fetch value instead of handling error"

def getAxes (library : JsonLibrary) (name : String) (attributes : FrontendAttributes) :
    StatusOr (Option LogicalShardingAxes) :=
  match getAxesString attributes with
  | some text => do return some (← parseAxes library name text)
  | none => return none

def assignAxes (library : JsonLibrary) (attributes : FrontendAttributes)
    (axes : LogicalShardingAxes) : FrontendAttributes :=
  assignAxesText attributes (axesText library axes)

/-- The library reads the document that it wrote for these axes. -/
def ReadsBack (library : JsonLibrary) (axes : LogicalShardingAxes) : Prop :=
  library.parse (axesText library axes) = some (axesDocument axes)

theorem parseAxes_axesText {library : JsonLibrary} {axes : LogicalShardingAxes}
    (h : ReadsBack library axes) (name : String) :
    parseAxes library name (axesText library axes) = ok axes := by
  have hjson : getJsonValue library (axesText library axes) = ok (axesDocument axes) := by
    rw [getJsonValue, h]
    rfl
  have hnull : (toJson axes).isNull = false := rfl
  have haxes := getTaskValue_object decodes_axes hnull name "axes"
  simp only [parseAxes, hjson, axesDocument, haxes, pure_eq]

section roundTrip

variable {library : JsonLibrary} {attributes : FrontendAttributes} {axes : LogicalShardingAxes}

theorem getAxes_assignAxes_of_unassigned (h : ReadsBack library axes)
    (hnone : getAxesString attributes = none) (name : String) :
    getAxes library name (assignAxes library attributes axes) = ok (some axes) := by
  have htext := getAxesString_assignAxesText attributes (axesText library axes)
  rw [hnone] at htext
  simp only [getAxes, assignAxes, htext, Option.getD_none, parseAxes_axesText h, ok_bind, pure_eq]

theorem getAxes_assignAxes_of_assigned {old : String} (h : getAxesString attributes = some old)
    (name : String) :
    getAxes library name (assignAxes library attributes axes) =
      getAxes library name attributes := by
  rw [assignAxes, assignAxesText_of_assigned attributes _ h]

/-- The axes that were assigned are read back just when the instruction had none, or had the
same ones already; the other attributes stay in any case. -/
theorem getAxes_assignAxes_iff (h : ReadsBack library axes) (name : String) :
    (getAxes library name (assignAxes library attributes axes) = ok (some axes) ∧
        ∀ key, key ≠ "axes" → assignAxes library attributes axes key = attributes key) ↔
      getAxesString attributes = none ∨ getAxes library name attributes = ok (some axes) := by
  have hothers : ∀ key, key ≠ "axes" → assignAxes library attributes axes key = attributes key :=
    fun key hkey => assignAxesText_of_ne attributes _ hkey
  cases hattr : getAxesString attributes with
  | none =>
    have hread := getAxes_assignAxes_of_unassigned h hattr name
    exact ⟨fun _ => .inl rfl, fun _ => ⟨hread, hothers⟩⟩
  | some old =>
    have hread : getAxes library name (assignAxes library attributes axes) =
        getAxes library name attributes := getAxes_assignAxes_of_assigned hattr name
    rw [hread]
    constructor
    · rintro ⟨hsame, -⟩
      exact .inr hsame
    · rintro (hnone | hsame)
      · cases hnone
      · exact ⟨hsame, hothers⟩

end roundTrip

mutual

/-- The text of a document whose strings need no escapes. -/
def plainText : Json → String
  | .null => "null"
  | .bool value => if value then "true" else "false"
  | .int value => toString value
  | .string value => "\"" ++ value ++ "\""
  | .array values => "[" ++ plainElements values ++ "]"
  | .object members => "\x7b" ++ plainMembers members ++ "\x7d"

def plainElements : List Json → String
  | [] => ""
  | [value] => plainText value
  | value :: rest => plainText value ++ "," ++ plainElements rest

def plainMembers : List (String × Json) → String
  | [] => ""
  | [(name, value)] => "\"" ++ name ++ "\":" ++ plainText value
  | (name, value) :: rest => "\"" ++ name ++ "\":" ++ plainText value ++ "," ++ plainMembers rest

end

/-- A library at two documents, which give the first dimension the axis `x` or `y`. -/
def twoDocuments : JsonLibrary where
  write json := plainText json ++ "\n"
  parse text :=
    if text = "\x7b\"axes\":[[\"x\"]]\x7d" then some (axesDocument [["x"]])
    else if text = "\x7b\"axes\":[[\"y\"]]\x7d" then some (axesDocument [["y"]])
    else none

theorem axesText_x : axesText twoDocuments [["x"]] = "\x7b\"axes\":[[\"x\"]]\x7d" := by
  decide +kernel

theorem axesText_y : axesText twoDocuments [["y"]] = "\x7b\"axes\":[[\"y\"]]\x7d" := by
  decide +kernel

theorem readsBack_x : ReadsBack twoDocuments [["x"]] := by
  rw [ReadsBack, axesText_x]
  rfl

theorem readsBack_y : ReadsBack twoDocuments [["y"]] := by
  rw [ReadsBack, axesText_y]
  rfl

/-- An instruction without attributes. -/
def noAttributes : FrontendAttributes := fun _ => none

theorem getAxes_assignAxes_iff_unassigned :
    getAxes twoDocuments "dot" (assignAxes twoDocuments noAttributes [["x"]]) =
      ok (some [["x"]]) :=
  ((getAxes_assignAxes_iff readsBack_x "dot").mpr (.inl rfl)).1

/-- An instruction on the axis `x`, to which the axis `y` is assigned, stays on `x`. -/
theorem reassigned_not_read :
    ReadsBack twoDocuments [["y"]] ∧
      getAxes twoDocuments "dot"
          (assignAxes twoDocuments (assignAxes twoDocuments noAttributes [["x"]]) [["y"]]) =
        ok (some [["x"]]) := by
  refine ⟨readsBack_y, ?_⟩
  have hassigned : getAxesString (assignAxes twoDocuments noAttributes [["x"]]) =
      some (axesText twoDocuments [["x"]]) :=
    getAxesString_assignAxesText noAttributes _
  rw [getAxes_assignAxes_of_assigned hassigned]
  exact getAxes_assignAxes_of_unassigned readsBack_x rfl "dot"

end LogicalSharding
end MultiMeshJax
