import Schemaform.Json.Pointer
import Schemaform.Json.Resolve

/-!
# Resources.Graph

The schema documents of a form, the resources in them and where a reference leads.

* `UriRules`: parsing and resolution of URIs, a library's.
* `normalizeLocation`: a schema with an `$id` of its own is the root of its resource.
* `resolveReference`: a resource root, an anchor, or a pointer read from the deepest root above
  its target.
-/

namespace Schemaform.Resources

structure UriRules where
  /-- The absolute URI of a reference against a base, none where either does not parse. -/
  resolveAgainst : String → String → Option String
  /-- The normal form of an absolute URI, none for other texts. -/
  normalize : String → Option String

structure ResourceRoot where
  documentIndex : Nat
  resource : String
  documentPointer : Pointer
deriving DecidableEq, Repr

structure AnchorTarget where
  root : ResourceRoot
  documentPointer : Pointer
  pointer : Pointer
deriving DecidableEq, Repr

structure ResourceGraph where
  uris : UriRules
  documents : List Value
  aliases : List (String × ResourceRoot)
  anchors : List ((String × String) × AnchorTarget)

structure GraphLocation where
  schema : Value
  documentIndex : Nat
  resource : String
  pointer : Pointer
  documentPointer : Pointer
  resourceRoot : Pointer
deriving DecidableEq, Repr

inductive GraphError where
  | invalidGraph
  | panic (message : String)
deriving DecidableEq, Repr

def orInvalid {α : Type} (answer : Option α) : Except GraphError α :=
  answer.elim (.error .invalidGraph) .ok

def orPanic {α : Type} (message : String) (answer : Option α) : Except GraphError α :=
  answer.elim (.error (.panic message)) .ok

/-! ## URIs -/

/-- The text before the first `#` and the text behind it. -/
def splitFragment (uri : String) : String × String :=
  (String.ofList (uri.toList.takeWhile (· ≠ '#')),
    String.ofList ((uri.toList.dropWhile (· ≠ '#')).drop 1))

def resolveResourceUri (uris : UriRules) (baseUri id : String) : Option String := do
  let resolved ← uris.resolveAgainst baseUri id
  let (resource, fragment) := splitFragment resolved
  if fragment = "" then uris.normalize resource else none

def hexValue (value : UInt8) : Option UInt8 :=
  if 0x30 ≤ value ∧ value ≤ 0x39 then some (value - 0x30)
  else if 0x61 ≤ value ∧ value ≤ 0x66 then some (value - 0x61 + 10)
  else if 0x41 ≤ value ∧ value ≤ 0x46 then some (value - 0x41 + 10)
  else none

def decodeBytes : List UInt8 → Option (List UInt8)
  | [] => some []
  | byte :: rest =>
    if byte = 0x25 then
      match rest with
      | high :: low :: rest => do
        let high ← hexValue high
        let low ← hexValue low
        (decodeBytes rest).map ((high <<< 4 ||| low) :: ·)
      | _ => none
    else (decodeBytes rest).map (byte :: ·)

def decodeUriFragment (fragment : String) : Option String :=
  (decodeBytes fragment.toUTF8.toList).bind fun decoded => String.fromUTF8? ⟨decoded.toArray⟩

/-! ## Locations -/

/-- The pointer behind a root, none where the root is not above the target. -/
def relativePointer (root target : Pointer) : Option Pointer :=
  if root.isPrefixOf target then some (target.drop root.length) else none

namespace ResourceGraph

def schemaAt (graph : ResourceGraph) (documentIndex : Nat) (documentPointer : Pointer) :
    Option Value :=
  graph.documents[documentIndex]?.bind documentPointer.resolve

def locationFromRoot (graph : ResourceGraph) (root : ResourceRoot) :
    Except GraphError GraphLocation := do
  let schema ← orPanic "indexed resource roots remain addressable"
    (graph.schemaAt root.documentIndex root.documentPointer)
  pure {
    schema
    documentIndex := root.documentIndex
    resource := root.resource
    pointer := []
    documentPointer := root.documentPointer
    resourceRoot := root.documentPointer }

/-- The later of the two, where neither is deeper. -/
def deeper (left right : ResourceRoot) : ResourceRoot :=
  if left.documentPointer.text.utf8ByteSize < right.documentPointer.text.utf8ByteSize ∨
      left.documentPointer.text.utf8ByteSize = right.documentPointer.text.utf8ByteSize ∧
        left.resource ≤ right.resource then right
  else left

def deepestResourceRoot (graph : ResourceGraph) (documentIndex : Nat) (target : Pointer)
    (fallback : ResourceRoot) : ResourceRoot :=
  let candidates := (graph.aliases.map Prod.snd).filter fun candidate =>
    candidate.documentIndex == documentIndex && candidate.documentPointer.isPrefixOf target
  match candidates with
  | [] => fallback
  | first :: rest => rest.foldl deeper first

def normalizeLocation (graph : ResourceGraph) (location : GraphLocation) :
    Except GraphError GraphLocation :=
  if (graph.aliases.lookup location.resource).any fun root =>
      root.documentIndex == location.documentIndex &&
        root.documentPointer == location.documentPointer then
    .ok location
  else
    match (location.schema.get "$id").bind Value.asString with
    | none => .ok location
    | some id => do
      let canonical ← orInvalid (resolveResourceUri graph.uris location.resource id)
      let root ← orInvalid (graph.aliases.lookup canonical)
      if root.documentIndex ≠ location.documentIndex ∨
          root.documentPointer ≠ location.documentPointer then .error .invalidGraph
      else .ok { location with
        resource := root.resource
        pointer := []
        resourceRoot := root.documentPointer }

/-- The target of a pointer fragment. -/
def resolvePointer (graph : ResourceGraph) (root : ResourceRoot) (encodedFragment : String) :
    Except GraphError GraphLocation := do
  let fragment ← orInvalid (decodeUriFragment encodedFragment)
  let requestedPointer ← orInvalid (Pointer.parse fragment)
  let documentPointer := root.documentPointer ++ requestedPointer
  let schema ← orInvalid (graph.schemaAt root.documentIndex documentPointer)
  let root := graph.deepestResourceRoot root.documentIndex documentPointer root
  let pointer ← orInvalid (relativePointer root.documentPointer documentPointer)
  pure {
    schema
    documentIndex := root.documentIndex
    resource := root.resource
    pointer
    documentPointer
    resourceRoot := root.documentPointer }

def resolveAnchor (graph : ResourceGraph) (root : ResourceRoot) (encodedFragment : String) :
    Except GraphError GraphLocation := do
  let anchor ← orInvalid (decodeUriFragment encodedFragment)
  let anchored ← orInvalid (graph.anchors.lookup (root.resource, anchor))
  let schema ← orPanic "indexed anchors remain addressable"
    (graph.schemaAt anchored.root.documentIndex anchored.documentPointer)
  pure {
    schema
    documentIndex := anchored.root.documentIndex
    resource := anchored.root.resource
    pointer := anchored.pointer
    documentPointer := anchored.documentPointer
    resourceRoot := anchored.root.documentPointer }

def resolveReferenceRaw (graph : ResourceGraph) (baseResource reference : String) :
    Except GraphError GraphLocation := do
  let resolved ← orInvalid (graph.uris.resolveAgainst baseResource reference)
  let (resourceUri, encodedFragment) := splitFragment resolved
  let normalizedResource ← orInvalid (graph.uris.normalize resourceUri)
  let root ← orInvalid (graph.aliases.lookup normalizedResource)
  if encodedFragment = "" then graph.locationFromRoot root
  else if encodedFragment.toList.head? ≠ some '/' then graph.resolveAnchor root encodedFragment
  else graph.resolvePointer root encodedFragment

def resolveReference (graph : ResourceGraph) (baseResource reference : String) :
    Except GraphError GraphLocation := do
  graph.normalizeLocation (← graph.resolveReferenceRaw baseResource reference)

/-- References that lead to one place find it under one base. -/
def OneBase (graph : ResourceGraph) : Prop :=
  ∀ baseResource reference baseResource' reference' target target',
    graph.resolveReference baseResource reference = .ok target →
    graph.resolveReference baseResource' reference' = .ok target' →
    target.documentIndex = target'.documentIndex →
    target.documentPointer = target'.documentPointer → target = target'

end ResourceGraph

end Schemaform.Resources
