import Schemaform.Compile.Budget
import Schemaform.Compile.Inherited

/-!
# Compile.Reader

The compiler of a prepared graph as a reader of the abstract projection.

* `ObjectSchemas`: the schemas of one object, all JSON values.
* `certified`: an outcome with what is known of it.
* `GraphReader`: a graph of JSON documents and what the compiler is run with.
* `GraphReader.reader`: what the schemas of every place say, each place expanded on its own.
-/

namespace Schemaform.Engine

open Resources (ResourceGraph GraphLocation)

structure ObjectSchemas where
  schemas : List ApplicableSchema
  activeLocations : List SchemaIdentity
  wf : ∀ located ∈ schemas, located.schema.WF

def certified {α ε : Type} {P : α → Prop} (x : Except ε α) (h : ∀ a, x = .ok a → P a) :
    Except ε { a : α // P a } :=
  match x with
  | .ok a => .ok ⟨a, h a rfl⟩
  | .error e => .error e

theorem certified_eq_ok {α ε : Type} {P : α → Prop} {x : Except ε α}
    {h : ∀ a, x = .ok a → P a} {a : { a : α // P a }} : certified x h = .ok a ↔ x = .ok a.1 := by
  obtain ⟨a, ha⟩ := a
  cases x <;> simp [certified]

def ProjectedKind.scalarKind : ProjectedKind → Option ScalarKind
  | .string => some .string
  | .number => some .number
  | .integer => some .integer
  | .boolean => some .boolean
  | .null | .object | .array => none

def AnnotatedChoices.plain (choices : AnnotatedChoices) : ScalarChoices :=
  ⟨choices.values.map (·.value), choices.selectable, choices.nullOnly⟩

theorem projectedSchemas_schemas {graph : ResourceGraph} {fuel : Nat} {expansion : SchemaExpansion}
    {projected : Compiled.ProjectedSchemas}
    (h : Compiled.projectedSchemas graph fuel expansion = .ok projected) :
    projected.schemas = expansion.schemas := by
  obtain ⟨choices, -, h⟩ := bind_eq_ok.mp h
  obtain ⟨deferred, -, h⟩ := bind_eq_ok.mp h
  cases h
  rfl

structure GraphReader where
  digest : List UInt8 → Nat
  usizeMax : Nat
  graph : ResourceGraph
  fuel : Nat
  maxTraversal : Nat
  wf : DocumentsWF graph

namespace GraphReader

variable (compiler : GraphReader)

/-- The schemas that apply through some, with the visits they take. -/
def expansion (schemas : List ApplicableSchema) (activeLocations : List SchemaIdentity) :
    Except CompileError SchemaExpansion :=
  expandReferences compiler.graph schemas activeLocations [] ⟨compiler.maxTraversal, 0⟩

variable {compiler} in
theorem expansion_wf {schemas : List ApplicableSchema} {activeLocations : List SchemaIdentity}
    (hschemas : ∀ located ∈ schemas, located.schema.WF) (expansion : SchemaExpansion)
    (h : compiler.expansion schemas activeLocations = .ok expansion) :
    ∀ located ∈ expansion.schemas, located.schema.WF :=
  expandReferences_inherits (inherits_wf compiler.wf) hschemas h

/-- What is projected from schemas that are expanded. -/
def projected (schemas : List ApplicableSchema) (activeLocations : List SchemaIdentity)
    (wf : ∀ located ∈ schemas, located.schema.WF) : Except CompileError
      (Nat × { projected : Compiled.ProjectedSchemas //
        ∀ located ∈ projected.schemas, located.schema.WF }) := do
  let expansion ← certified (compiler.expansion schemas activeLocations) (expansion_wf wf)
  let projected ← certified (Compiled.projectedSchemas compiler.graph compiler.fuel expansion.1)
    (fun _ h => projectedSchemas_schemas h ▸ expansion.2)
  pure (expansion.1.traversal.observed, projected)

def annotations (projected : Compiled.ProjectedSchemas) : DataSchemaAnnotations :=
  dataSchemaAnnotations compiler.digest (Compiled.plainSchemas projected.schemas)

/-- The schemas of an object below the places that are being expanded. -/
def objectSchemas (projected : Compiled.ProjectedSchemas) (activeLocations : List SchemaIdentity)
    (wf : ∀ located ∈ projected.schemas, located.schema.WF) : ObjectSchemas :=
  ⟨projected.schemas, activeLocations ++ projected.schemas.map (·.identity), wf⟩

def scalarShape (projected : Compiled.ProjectedSchemas) : ItemShape ObjectSchemas :=
  match projected.choices with
  | some choices => .choices choices.plain
  | none =>
    match projected.kind.bind ProjectedKind.scalarKind with
    | some kind => .scalar kind (applicableAcceptsNull (Compiled.plainSchemas projected.schemas))
    | none => .unsupported

def itemShape (projected : Compiled.ProjectedSchemas) (activeLocations : List SchemaIdentity)
    (wf : ∀ located ∈ projected.schemas, located.schema.WF) : ItemShape ObjectSchemas :=
  if projected.findings.isEmpty then
    if projected.kind = some .object then .object (objectSchemas projected activeLocations wf)
    else scalarShape projected
  else .unsupported

/-- The items of an array; no visit is spent where there are none. -/
def items (applicable : List ApplicableSchema) (activeLocations : List SchemaIdentity)
    (wf : ∀ located ∈ applicable, located.schema.WF) :
    Except CompileError (Nat × Items ObjectSchemas) := do
  let items ← certified (Compiled.itemSchemas compiler.graph applicable)
    (fun _ h => itemSchemas_inherits (inherits_wf compiler.wf) wf h)
  if items.1.isEmpty then pure (0, ⟨dataSchemaAnnotations compiler.digest [], .unsupported⟩)
  else do
    let (visits, projected) ← compiler.projected items.1 activeLocations items.2
    pure (visits, ⟨compiler.annotations projected.1,
      itemShape projected.1 activeLocations projected.2⟩)

def array (projected : Compiled.ProjectedSchemas) (activeLocations : List SchemaIdentity)
    (wf : ∀ located ∈ projected.schemas, located.schema.WF) : ArrayShape ObjectSchemas :=
  let arrays := Compiled.plainSchemas projected.schemas
  let bounds := arrayLengthBounds compiler.usizeMax (arrays.map (·.schema))
  ⟨bounds.1, bounds.2, Compiled.arrayUniqueItems arrays,
    compiler.items projected.schemas activeLocations wf⟩

/-- The shape of a property without findings. -/
def propertyShape (projected : Compiled.ProjectedSchemas) (activeLocations : List SchemaIdentity)
    (wf : ∀ located ∈ projected.schemas, located.schema.WF) : PropertyShape ObjectSchemas :=
  match projected.choices, projected.kind with
  | some choices, _ => .choices choices.plain
  | none, some .object => .object (objectSchemas projected activeLocations wf)
  | none, some .array => .array (compiler.array projected activeLocations wf)
  | none, some kind =>
    match kind.scalarKind with
    | some kind => .scalar kind (applicableAcceptsNull (Compiled.plainSchemas projected.schemas))
    | none => .unsupported
  | none, none => .unsupported

def property (object : ObjectSchemas) (propertyName : String) :
    Except CompileError (Nat × Property ObjectSchemas) := do
  let children ← certified (Compiled.childSchemas compiler.graph object.schemas propertyName)
    (fun _ h => childSchemas_inherits (inherits_wf compiler.wf) object.wf h)
  let (visits, projected) ← compiler.projected children.1 object.activeLocations children.2
  pure (visits, {
    annotations := compiler.annotations projected.1
    required := Compiled.isRequired object.schemas propertyName
    shape :=
      if (projected.1.findings ++ projected.1.kindConflictFindings).isEmpty then
        compiler.propertyShape projected.1 object.activeLocations projected.2
      else .unsupported })

/-- The kind of the root is told from its schemas, its findings from all that bear on its shape. -/
def root (location : GraphLocation) (wf : location.schema.WF) :
    Except CompileError (Nat × RootShape ObjectSchemas) := do
  let expansion ← certified (compiler.expansion [locatedFromGraph location] [])
    (expansion_wf (by
      intro located hl
      rw [List.mem_singleton.mp hl]
      exact wf))
  let schemas := Compiled.plainSchemas expansion.1.schemas
  let kind := inferKind schemas
  let (choices, choiceFindings) ← Compiled.choicesOrFinding (scalarChoices schemas kind)
  let findings ←
    Compiled.rootFindings compiler.graph compiler.fuel expansion.1 kind choices choiceFindings
  pure (expansion.1.traversal.observed, {
    annotations := dataSchemaAnnotations compiler.digest schemas
    object := if kind = some .object then
      some ⟨expansion.1.schemas, expansion.1.schemas.map (·.identity), expansion.2⟩ else none
    findings := !findings.isEmpty })

def reader (location : GraphLocation) (wf : location.schema.WF) : SchemaReader ObjectSchemas where
  root := compiler.root location wf
  hasProperties object := Compiled.hasProperties object.schemas
  propertyNames object := Compiled.propertyNames object.schemas
  isExplicitlyClosedObject object := isExplicitlyClosedObject (Compiled.plainSchemas object.schemas)
  property := compiler.property

end GraphReader

end Schemaform.Engine
