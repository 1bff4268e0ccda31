/-!
# Faults of documents

Why the text of a document cannot be read: it is not well formed, it ends too early, or it is well
formed but says something that cannot be accepted.
-/

namespace Orthotope

/-- Why a document cannot be read. -/
inductive Fault where
  /-- The text is not well formed. -/
  | malformed
  /-- The text ends too early. -/
  | truncated
  /-- A field is given twice. -/
  | repeatedField (name : String)
  /-- A field has no meaning. -/
  | unknownField (name : String)
  /-- A field is left out. -/
  | missingField (name : String)
  /-- The number of elements differs from the size of the shape. -/
  | dataLength
  /-- The document is something else than an object. -/
  | notObject (found : String)
  /-- A value inside the document is not of the right type or out of range. -/
  | unsuitable
  deriving DecidableEq, Repr

namespace Fault

/-- What is wrong with a document that is well formed, where it can be said in terms of its fields. -/
def message? : Fault → Option String
  | malformed | truncated | unsuitable => none
  | repeatedField name => some s!"duplicate field `{name}`"
  | unknownField name => some s!"unknown field `{name}`, expected `data` or `shape`"
  | missingField name => some s!"missing field `{name}`"
  | dataLength => some "data length does not match shape product"
  | notObject found =>
    some s!"invalid type: {found}, expected a cube with \"shape\" and \"data\" fields"

end Fault

end Orthotope
