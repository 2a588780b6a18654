-- Reading JSON values. Tokens are taken one at a time by a machine that keeps
-- the arrays and objects still open, innermost first, so no text is too deep
-- for it.
import StateGraph.Json.Basic
import StateGraph.Json.Token

namespace StateGraph.Json

abbrev Field := Option String × Json

/-- An array or object still open, with what has been read of it, last
first. -/
inductive Frame where
  | array (items : List Json)
  /-- The value of `key` comes next. -/
  | object (fields : List Field) (key : Option String)
  deriving Inhabited

/-- What has to come next. -/
inductive Reading where
  | value (frames : List Frame)
  /-- The first item of an array, or its end. -/
  | item (frames : List Frame)
  /-- The first key of an object, or its end. -/
  | firstKey (frames : List Frame)
  | key (fields : List Field) (frames : List Frame)
  | colon (fields : List Field) (key : Option String) (frames : List Frame)
  /-- A value is complete: the innermost frame goes on or ends. -/
  | done (value : Json) (frames : List Frame)
  deriving Inhabited

namespace Reading

/-- A token where a value has to come. -/
def begin (frames : List Frame) : Token → Option Reading
  | .null => some (.done .null frames)
  | .bool b => some (.done (.bool b) frames)
  | .number n => some (.done (.number n) frames)
  | .string s => some (.done (.string s) frames)
  | .openArray => some (.item frames)
  | .openObject => some (.firstKey frames)
  | _ => none

/-- The machine after one more token, unless no value goes on so. -/
def step : Reading → Token → Option Reading
  | .value frames, t => begin frames t
  | .item frames, .closeArray => some (.done (.array []) frames)
  | .item frames, t => begin (.array [] :: frames) t
  | .firstKey frames, .closeObject => some (.done (.object []) frames)
  | .firstKey frames, .string k => some (.colon [] k frames)
  | .key fields frames, .string k => some (.colon fields k frames)
  | .colon fields k frames, .colon => some (.value (.object fields k :: frames))
  | .done j (.array items :: frames), .comma => some (.value (.array (j :: items) :: frames))
  | .done j (.array items :: frames), .closeArray =>
    some (.done (.array (j :: items).reverse) frames)
  | .done j (.object fields k :: frames), .comma => some (.key ((k, j) :: fields) frames)
  | .done j (.object fields k :: frames), .closeObject =>
    some (.done (.object ((k, j) :: fields).reverse) frames)
  | _, _ => none

end Reading

def parse? (s : String) : Option Json := do
  match ← (← tokens? s).foldlM Reading.step (.value []) with
  | .done j [] => some j
  | _ => none

end StateGraph.Json
