import MultiMeshJax.Status

/-! The JSON values of the helpers in `json_utils`, and how lists of names are encoded in them
and read back. -/
namespace MultiMeshJax

open StatusOr

inductive Json where
  | null
  | bool (value : Bool)
  | int (value : ℤ)
  | string (value : String)
  | array (values : List Json)
  | object (members : List (String × Json))

/-- The reader and the writer of the JSON library. -/
structure JsonLibrary where
  write : Json → String
  parse : String → Option Json

namespace Json

variable {α : Type}

def isNull : Json → Bool
  | null => true
  | _ => false

/-- The member of an object, or null; other values than objects and null have no members. -/
def get (parent : Json) (name : String) : StatusOr Json :=
  match parent with
  | null => return null
  | object members => return (members.lookup name).getD null
  | _ => fatal "in Json::Value::find: requires objectValue or nullValue"

def toJsonVector (toJson : α → Json) (vector : List α) : Json :=
  array (vector.map toJson)

def getTaskValueString : Json → Option String
  | string value => some value
  | _ => none

def getTaskValueVector (getTaskValue : Json → Option α) : Json → Option (List α)
  | array values => values.mapM getTaskValue
  | _ => none

/-- What was encoded is read back. -/
def Decodes (getTaskValue : Json → Option α) (toJson : α → Json) : Prop :=
  ∀ value, getTaskValue (toJson value) = some value

theorem decodes_string : Decodes getTaskValueString string := fun _ => rfl

theorem decodes_vector {getTaskValue : Json → Option α} {toJson : α → Json}
    (h : Decodes getTaskValue toJson) :
    Decodes (getTaskValueVector getTaskValue) (toJsonVector toJson) := by
  intro vector
  show (vector.map toJson).mapM getTaskValue = some vector
  induction vector with
  | nil => rfl
  | cons value rest ih =>
    rw [List.map_cons, List.mapM_cons, h value, ih]
    rfl

end Json

def getJsonValue (library : JsonLibrary) (data : String) : StatusOr Json :=
  match library.parse data with
  | some result => return result
  | none => error ("invalid JSON received: " ++ data)

/-- `GetTaskValue` of a parent: the field must be there, and of the type that is read. -/
def getTaskValue {α : Type} (read : Json → Option α) (parent : Json) (context name : String) :
    StatusOr α := do
  let value ← parent.get name
  if value.isNull then
    error (context ++ " has no field '" ++ name ++ "' in backend config")
  else
    match read value with
    | some result => return result
    | none =>
      error (context ++ " could not cast field '" ++ name ++ "' to correct type in backend config")

theorem getTaskValue_object {α : Type} {read : Json → Option α} {toJson : α → Json}
    (h : Json.Decodes read toJson) {value : α} (hnull : (toJson value).isNull = false)
    (context name : String) :
    getTaskValue read (.object [(name, toJson value)]) context name = ok value := by
  have hget : (Json.object [(name, toJson value)]).get name = ok (toJson value) := by
    simp [Json.get]
  rw [getTaskValue, hget, ok_bind, hnull]
  simp [h value]

end MultiMeshJax
