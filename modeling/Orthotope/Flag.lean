/-!
# Flags

A flag is switched by a word such as `yes` or `off`, in letters of either case. A word that is none of
them leaves the flag off and is complained about.
-/

namespace Orthotope.Flag

/-- The words that switch a flag on. -/
def onWords : List String := ["1", "true", "t", "yes", "y", "on"]

/-- The words that switch a flag off. -/
def offWords : List String := ["0", "false", "f", "no", "n", "off", ""]

/-- What a word says, if it says anything. Only the letters from A to Z have another case. -/
def ofWord? (word : String) : Option Bool :=
  let word := word.toLower
  if word ∈ onWords then some true else if word ∈ offWords then some false else none

/-- The complaint about a word that says nothing. -/
def complaint (word : String) : String := s!"Unrecognized boolean value \"{word}\""

/-- The state of a flag that is switched by a word, and the complaints. -/
def ofWord (word : String) : Bool × List String :=
  match ofWord? word with
  | some state => (state, [])
  | none => (false, [complaint word])

/-- The state of a flag that may be left alone. -/
def ofSetting (setting : Option String) (usual : Bool) : Bool × List String :=
  match setting with
  | some word => ofWord word
  | none => (usual, [])

end Orthotope.Flag
