/-!
# YAML tokens

The marks and scalars of a stream in order.  Where a mapping or a sequence is
told by indentation, tokens of their own say where it begins and ends.
-/

namespace Stencil.Yaml

/-- One token of a stream. -/
inductive Token where
  /-- A directive with a version. -/
  | version (major minor : Nat)
  /-- A directive that abbreviates tags. -/
  | handle (handle expansion : List Char)
  | documentStart
  | documentEnd
  | streamEnd
  | sequenceStart
  | mappingStart
  /-- The end of a collection told by indentation. -/
  | blockEnd
  | flowSequenceStart
  | flowSequenceEnd
  | flowMappingStart
  | flowMappingEnd
  /-- A dash in front of an item. -/
  | item
  /-- A comma. -/
  | comma
  | key
  | value
  | alias (name : List Char)
  | anchor (name : List Char)
  /-- A tag: a handle, which may be empty, and what follows it. -/
  | tag (handle suffix : List Char)
  /-- A scalar, and whether it is plain, that is, neither quoted nor a block. -/
  | scalar (plain : Bool) (content : List Char)
  /-- What follows cannot be read. -/
  | unreadable
  deriving DecidableEq

end Stencil.Yaml
