import Orthotope.Text

/-!
# Diagnostic events

An `Event` records that a view was made, that a bulk transfer passed through a view or a conversion,
that dense storage was allocated, or that a file was mapped. `Event.line` is the line that a log of
such events shows.
-/

namespace Orthotope

/-- Something worth a line in a diagnostic log. -/
inductive Event where
  /-- A view of the transform `name` was made. -/
  | viewed (name : String) (shape inner : List Nat)
  /-- The `count` elements from `pos` on are read through a view. -/
  | flattened (name : String) (pos count : Nat)
  /-- The `count` elements from `pos` on are written through a view. -/
  | unflattened (name : String) (pos count : Nat)
  /-- The `count` elements from `pos` on are read and converted between element kinds. -/
  | converted (source target : String) (pos count : Nat)
  /-- Dense storage filled with the null value was made. -/
  | allocated (kind : String) (shape : List Nat) (chunks : Nat)
  /-- A file was made or emptied, sized to `bytes` and mapped. -/
  | fileCreated (bytes : Nat) (name : String)
  /-- An existing file was mapped. -/
  | fileOpened (writable : Bool) (name : String)
  deriving DecidableEq, Repr

namespace Event

/-- What an event says. -/
def text : Event → String
  | viewed name shape inner =>
    s!"creating \"{name}\" view with shape {bracketed shape} over shape {bracketed inner}"
  | flattened name pos count => s!"flattening {name} view: src_pos={pos} len={count}"
  | unflattened name pos count => s!"unflattening {name} view: dst_pos={pos} len={count}"
  | converted source target pos count =>
    s!"casting {source} to {target}: src_pos={pos} len={count}"
  | allocated kind shape chunks =>
    s!"allocated {kind} cube with shape {bracketed shape} in {chunks} chunks"
  | fileCreated bytes name => s!"created {bytes} byte mapping of {name}"
  | fileOpened true name => s!"opened writable mapping of {name}"
  | fileOpened false name => s!"opened read-only mapping of {name}"

/-- The line of the log that shows an event. -/
def line (e : Event) : String :=
  "[hypercube] " ++ e.text

end Event

end Orthotope
