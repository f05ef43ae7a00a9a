import Stencil.Yaml.Scalar
import Stencil.Yaml.Token

/-!
# YAML nodes

A document is a tree of scalars, sequences and mappings.  A node may carry an
anchor, and an alias refers to a node with an anchor, possibly one around
itself; so anchored nodes are kept in a list and aliases hold their number.
-/

namespace Stencil.Yaml

/-- A node of a document. -/
inductive Node where
  | scalar (tag : Tag) (content : List Char)
  | sequence (items : List Node)
  /-- A mapping, and whether it is tagged as null. -/
  | mapping (null : Bool) (entries : List (Node × Node))
  | alias (name : List Char) (target : Nat)
  deriving Inhabited

/-- The node that stands for nothing. -/
def Node.empty : Node :=
  .scalar .null []

/-- A document: its root and its anchored nodes by number. -/
structure Document where
  root : Node
  anchored : List (Nat × Node)

/-- The node an alias refers to; any other node itself. -/
def Document.resolve? (document : Document) : Node → Option Node
  | .alias _ target => document.anchored.lookup target
  | node => some node

/-- Tokens still to be read and the anchors met so far. -/
structure Stream where
  tokens : List Token
  /-- The numbers of the anchor names, latest first. -/
  names : List (List Char × Nat) := []
  /-- The number of the next anchor. -/
  next : Nat := 0
  anchored : List (Nat × Node) := []
  /-- What the handles of tags stand for. -/
  handles : List (List Char × List Char) := []

namespace Stream

/-- The next token, which stays in place. -/
def peek? (stream : Stream) : Option Token :=
  match stream.tokens with
  | [] => some .streamEnd
  | .unreadable :: _ => none
  | token :: _ => some token

/-- Passes over the next token. -/
def skip (stream : Stream) : Stream :=
  { stream with tokens := stream.tokens.tail }

/-- The name a tag stands for, which its handle must tell. -/
def expand? (stream : Stream) (handle suffix : List Char) : Option String :=
  if handle.isEmpty then some (String.ofList suffix)
  else (stream.handles.lookup handle).map fun expansion => String.ofList (expansion ++ suffix)

/-- Reads the anchor and the tag in front of a node, in either order. -/
def properties? (stream : Stream) : Option (Option (List Char) × Option String × Stream) := do
  match ← stream.peek? with
  | .anchor name =>
      let stream := stream.skip
      match ← stream.peek? with
      | .tag handle suffix =>
          return (some name, some (← stream.expand? handle suffix), stream.skip)
      | _ => return (some name, none, stream)
  | .tag handle suffix =>
      let tag ← stream.expand? handle suffix
      let stream := stream.skip
      match ← stream.peek? with
      | .anchor name => return (some name, some tag, stream.skip)
      | _ => return (none, some tag, stream)
  | _ => return (none, none, stream)

/-- Gives an anchor its number, before the node behind it is read. -/
def declare (stream : Stream) (name : Option (List Char)) : Option Nat × Stream :=
  match name with
  | none => (none, stream)
  | some name =>
      (some stream.next,
        { stream with names := (name, stream.next) :: stream.names, next := stream.next + 1 })

/-- Records an anchored node. -/
def record (stream : Stream) (number : Option Nat) (node : Node) : Stream :=
  match number with
  | none => stream
  | some number => { stream with anchored := (number, node) :: stream.anchored }

/-- A scalar under the tag in front of it, if there is one. -/
def scalar (tag : Option String) (plain : Bool) (content : List Char) : Node :=
  match tag with
  | none | some "!" => .scalar (Tag.ofScalar plain content) content
  | some name => .scalar (Tag.ofName name) content

end Stream

mutual

/-- Reads a node.  Collections told by indentation may stand where `block`
allows them, and a sequence that is not indented where `indentless` does. -/
def node? : Nat → Bool → Bool → Stream → Option (Node × Stream)
  | 0, _, _, _ => none
  | budget + 1, block, indentless, stream => do
      match ← stream.peek? with
      | .alias name =>
          let target ← stream.names.lookup name
          return (.alias name target, stream.skip)
      | _ =>
          let (name, tag, stream) ← stream.properties?
          let token ← stream.peek?
          let (number, opened) := stream.declare name
          let isNull := tag.any fun tag => Tag.ofName tag = .null
          let (node, stream) ←
            match token with
            | .scalar plain content => some (Stream.scalar tag plain content, opened.skip)
            | .flowSequenceStart => sequence (flowItems? budget true opened.skip)
            | .flowMappingStart => mapping isNull (flowEntries? budget true opened.skip)
            | .item =>
                if indentless then sequence (plainItems? budget opened)
                else if name.isSome || tag.isSome then some (Stream.scalar tag true [], opened)
                else none
            | .sequenceStart =>
                if block then sequence (blockItems? budget opened.skip)
                else if name.isSome || tag.isSome then some (Stream.scalar tag true [], opened)
                else none
            | .mappingStart =>
                if block then mapping isNull (blockEntries? budget opened.skip)
                else if name.isSome || tag.isSome then some (Stream.scalar tag true [], opened)
                else none
            | _ =>
                if name.isSome || tag.isSome then some (Stream.scalar tag true [], opened)
                else none
          return (node, stream.record number node)
where
  sequence (items : Option (List Node × Stream)) : Option (Node × Stream) :=
    items.map fun (items, stream) => (.sequence items, stream)
  mapping (isNull : Bool) (entries : Option (List (Node × Node) × Stream)) :
      Option (Node × Stream) :=
    entries.map fun (entries, stream) => (.mapping isNull entries, stream)

/-- Reads the items of an indented sequence. -/
def blockItems? : Nat → Stream → Option (List Node × Stream)
  | 0, _ => none
  | budget + 1, stream => do
      match ← stream.peek? with
      | .item =>
          let stream := stream.skip
          let (item, stream) ←
            match ← stream.peek? with
            | .item | .blockEnd => some (Node.empty, stream)
            | _ => node? budget true false stream
          let (items, stream) ← blockItems? budget stream
          return (item :: items, stream)
      | .blockEnd => return ([], stream.skip)
      | _ => none

/-- Reads the items of a sequence that is not indented. -/
def plainItems? : Nat → Stream → Option (List Node × Stream)
  | 0, _ => none
  | budget + 1, stream => do
      match ← stream.peek? with
      | .item =>
          let stream := stream.skip
          let (item, stream) ←
            match ← stream.peek? with
            | .item | .key | .value | .blockEnd => some (Node.empty, stream)
            | _ => node? budget true false stream
          let (items, stream) ← plainItems? budget stream
          return (item :: items, stream)
      | _ => return ([], stream)

/-- Reads the entries of an indented mapping. -/
def blockEntries? : Nat → Stream → Option (List (Node × Node) × Stream)
  | 0, _ => none
  | budget + 1, stream => do
      match ← stream.peek? with
      | .key =>
          let stream := stream.skip
          let (key, stream) ←
            match ← stream.peek? with
            | .key | .value | .blockEnd => some (Node.empty, stream)
            | _ => node? budget true true stream
          let (value, stream) ←
            match ← stream.peek? with
            | .value =>
                let stream := stream.skip
                match ← stream.peek? with
                | .key | .value | .blockEnd => some (Node.empty, stream)
                | _ => node? budget true true stream
            | _ => some (Node.empty, stream)
          let (entries, stream) ← blockEntries? budget stream
          return ((key, value) :: entries, stream)
      | .blockEnd => return ([], stream.skip)
      | _ => none

/-- Reads the items of a sequence in brackets.  A single entry of a mapping may
stand for an item. -/
def flowItems? : Nat → Bool → Stream → Option (List Node × Stream)
  | 0, _, _ => none
  | budget + 1, first, stream => do
      let token ← stream.peek?
      if token = .flowSequenceEnd then return ([], stream.skip)
      if !first && token ≠ .comma then none
      let stream := if first then stream else stream.skip
      match ← stream.peek? with
      | .flowSequenceEnd => return ([], stream.skip)
      | .key =>
          let (key, stream) ← pairKey? budget stream.skip
          let (value, stream) ← pairValue? budget stream
          let (items, stream) ← flowItems? budget false stream
          return (.mapping false [(key, value)] :: items, stream)
      | _ =>
          let (item, stream) ← node? budget false false stream
          let (items, stream) ← flowItems? budget false stream
          return (item :: items, stream)

/-- Reads the key of a single entry.  Where it is missing, the token in its place
is passed over. -/
def pairKey? : Nat → Stream → Option (Node × Stream)
  | 0, _ => none
  | budget + 1, stream => do
      match ← stream.peek? with
      | .value | .comma | .flowSequenceEnd => return (Node.empty, stream.skip)
      | _ => node? budget false false stream

/-- Reads the value of a single entry. -/
def pairValue? : Nat → Stream → Option (Node × Stream)
  | 0, _ => none
  | budget + 1, stream => do
      match ← stream.peek? with
      | .value =>
          let stream := stream.skip
          match ← stream.peek? with
          | .comma | .flowSequenceEnd => return (Node.empty, stream)
          | _ => node? budget false false stream
      | _ => return (Node.empty, stream)

/-- Reads the entries of a mapping in braces. -/
def flowEntries? : Nat → Bool → Stream → Option (List (Node × Node) × Stream)
  | 0, _, _ => none
  | budget + 1, first, stream => do
      let token ← stream.peek?
      if token = .flowMappingEnd then return ([], stream.skip)
      if !first && token ≠ .comma then none
      let stream := if first then stream else stream.skip
      match ← stream.peek? with
      | .flowMappingEnd => return ([], stream.skip)
      | .key =>
          let stream := stream.skip
          let (key, stream) ←
            match ← stream.peek? with
            | .value | .comma | .flowMappingEnd => some (Node.empty, stream)
            | _ => node? budget false false stream
          let (value, stream) ← flowValue? budget stream
          let (entries, stream) ← flowEntries? budget false stream
          return ((key, value) :: entries, stream)
      | _ =>
          let (key, stream) ← node? budget false false stream
          let (entries, stream) ← flowEntries? budget false stream
          return ((key, Node.empty) :: entries, stream)

/-- Reads the value of an entry of a mapping in braces. -/
def flowValue? : Nat → Stream → Option (Node × Stream)
  | 0, _ => none
  | budget + 1, stream => do
      match ← stream.peek? with
      | .value =>
          let stream := stream.skip
          match ← stream.peek? with
          | .comma | .flowMappingEnd => return (Node.empty, stream)
          | _ => node? budget false false stream
      | _ => return (Node.empty, stream)

end

/-- Reads the directives in front of a document.  There is at most one version,
which has to be the supported one, and a handle is declared at most once. -/
def directives? : Nat → Bool → Stream → Option Stream
  | 0, _, _ => none
  | budget + 1, versioned, stream => do
      match ← stream.peek? with
      | .version major minor =>
          if versioned || major ≠ 1 || minor ≠ 1 then none
          else directives? budget true stream.skip
      | .handle handle expansion =>
          if (stream.handles.lookup handle).isSome then none
          else
            directives? budget versioned
              { stream.skip with handles := (handle, expansion) :: stream.handles }
      | _ => return stream

/-- The handles known without a directive. -/
def standardHandles : List (List Char × List Char) :=
  [(['!'], ['!']), (['!', '!'], "tag:yaml.org,2002:".toList)]

/-- Reads the first document of a stream; there is none in an empty stream.
Whatever follows the root is left alone. -/
def document? (tokens : List Token) : Option (Option Document) := do
  let budget := 2 * tokens.length + 4
  let stream : Stream := { tokens }
  let known (stream : Stream) : Stream :=
    { stream with handles := stream.handles ++ standardHandles }
  let finish (read : Node × Stream) : Option (Option Document) := do
    let (root, stream) := read
    let _ ← stream.peek?
    return some { root, anchored := stream.anchored }
  match ← stream.peek? with
  | .streamEnd => return none
  | .version _ _ | .handle _ _ | .documentStart =>
      let stream := known (← directives? budget false stream)
      match ← stream.peek? with
      | .documentStart =>
          let stream := stream.skip
          match ← stream.peek? with
          | .version _ _ | .handle _ _ | .documentStart | .documentEnd | .streamEnd =>
              finish (Node.empty, stream)
          | _ => finish (← node? budget true false stream)
      | _ => none
  | _ => finish (← node? budget true false (known stream))

end Stencil.Yaml
