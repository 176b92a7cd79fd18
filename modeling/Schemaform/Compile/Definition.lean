import Schemaform.Compile.DefinitionTree
import Schemaform.Compile.Reads
import Schemaform.Compile.UiSchema

/-!
# Compile.Definition

From a prepared graph and a layout to the definition a form is created from.

* `capabilityFindings`: warnings, and what unsupported regions report.
* `DefinitionInner.analyzeAt`: projection, nodes, annotation scopes and findings. The limits are
  checked elsewhere; the validator and the JSON library are given.
* `RootCompiled.wellFormed`: the compiled nodes are those of a well-formed definition.
* `analyzeAt_wellFormed`, and `FormDefinition.analyzeAt` with it.
-/

namespace Schemaform

open Resources (GraphLocation)

variable {isUri : String → Bool}

/-! ## Findings -/

def capabilityFinding (binding : Pointer) (finding : Engine.UnsupportedFinding)
    (severity : CapabilitySeverity) : CapabilityFinding where
  code := finding.code
  instanceLocation := binding
  keywordLocation := ⟨finding.resource, finding.keywordLocation⟩
  parameters := finding.parameters
  severity := severity

def Engine.Compiled.FormDefinition.capabilityFindings (engine : Engine.Compiled.FormDefinition) :
    List CapabilityFinding :=
  (engine.capabilityWarnings.map fun warning => capabilityFinding warning.1 warning.2
    (if warning.2.code = "applicator.additional-properties.open" then .info else .warning)) ++
  engine.unsupportedRegions.flatMap fun region =>
    region.findings.map fun finding => capabilityFinding region.binding finding .blocking

/-! ## Definitions -/

/-- Why there is no definition of a prepared graph under a layout. -/
inductive DefinitionError where
  | engine (error : Engine.CompileError)
  | uiSchema (error : UiSchemaInputError)
deriving DecidableEq, Repr

/-- What compiles, before it is known to be well formed. -/
def DefinitionInner.analyzeAt (compiler : Engine.GraphReader) (root : GraphLocation)
    (uiSchema : Option (Ui.V1.UiSchema isUri)) (validator : Validator)
    (parser : Engine.JsonParser) : Except DefinitionError DefinitionInner := do
  let engine ← (Engine.Compiled.compileGraph compiler.digest compiler.usizeMax compiler.graph
    compiler.fuel root compiler.maxTraversal).mapError .engine
  let nodes ← (compileNodes (uiSchema.map (·.root.authored)) engine.plain).mapError .uiSchema
  pure {
    engine := engine.plain
    validator
    parser
    nodes := nodes.map (·.toDefinitionNode)
    annotationScopes := annotationScopesOf engine.plain
    capabilityFindings := engine.capabilityFindings }

/-! ## Well-formed nodes -/

/-- A definition with compiled nodes. -/
structure DefinitionInner.Holds (definition : DefinitionInner) (nodes : List CompiledNode) :
    Prop where
  nodes : definition.nodes = nodes.map (·.toDefinitionNode)
  annotationScopes : definition.annotationScopes = annotationScopesOf definition.engine

namespace DefinitionInner.Holds

variable {definition : DefinitionInner} {nodes : List CompiledNode}
  (h : definition.Holds nodes)
include h

theorem get {i : Nat} {node : DefinitionNode} : definition.nodes[i]? = some node ↔
    ∃ compiled, nodes[i]? = some compiled ∧ compiled.toDefinitionNode = node := by
  rw [h.nodes, List.getElem?_map, Option.map_eq_some_iff]

theorem mem {node : DefinitionNode} : node ∈ definition.nodes ↔
    ∃ compiled ∈ nodes, compiled.toDefinitionNode = node := by
  rw [h.nodes, List.mem_map]

theorem length : definition.nodes.length = nodes.length := by
  rw [h.nodes, List.length_map]

theorem children_eq (hsegment : Segment none 0 nodes [0]) :
    definition.children = childIds nodes := by
  funext i
  rw [DefinitionInner.children, DefinitionInner.node, h.nodes, List.getElem?_map, childIds,
    Forest.Piece.childrenOf, List.getElem?_map]
  cases hi : nodes[i]? with
  | none => rfl
  | some node =>
    have hid : node.id = i := by simpa using hsegment.id_eq hi
    rw [Option.map_some, Option.filter_some, beq_iff_eq.mpr hid]
    rfl

/-- The owner of a node, as the node of its array tells. -/
theorem ownerBinding_eq (hsegment : Segment none 0 nodes [0]) {owningArray : Option Nat}
    {owner : Option Pointer} (howner : OwnerShown .root nodes owningArray owner)
    (node : DefinitionNode) (hnode : node.owningArray = owningArray) :
    definition.ownerBinding node = owner ∧ node.owningArray.isSome = owner.isSome := by
  rw [DefinitionInner.ownerBinding, hnode]
  rcases howner with ⟨rfl, rfl⟩ | ⟨hsome, array, harray, rfl, hbinding⟩
  · exact ⟨rfl, rfl⟩
  · have hget : definition.nodes[array.id]? = some array.toDefinitionNode :=
      h.get.mpr ⟨array, hsegment.get harray, rfl⟩
    refine ⟨?_, hsome.symm⟩
    rw [Option.bind_some, hget, Option.bind_some]
    exact hbinding

theorem content (hsegment : Segment none 0 nodes [0]) {node : CompiledNode}
    (hcontent : Content (generatedNodes definition.engine) .root nodes node) :
    (∃ generated ∈ generatedNodes definition.engine,
      definition.Instantiates node.toDefinitionNode generated) ∨
    definition.Presentation node.toDefinitionNode := by
  cases hcontent with
  | shown g hg id owningArray children authoredId howner =>
    obtain ⟨hbinding, hsome⟩ := h.ownerBinding_eq hsegment howner
      (g.definitionNode id owningArray children).toDefinitionNode rfl
    refine .inl ⟨g, hg, ?_⟩
    constructor <;> first | rfl | exact hsome | exact hbinding
  | layout kind hkind id owningArray children authoredId =>
    exact .inr ⟨rfl, rfl, hkind, rfl, .inl rfl⟩

end DefinitionInner.Holds

/-- The compiled nodes of a projection are those of a well-formed definition. -/
theorem RootCompiled.wellFormed {definition : DefinitionInner} {roots : List Nat}
    {added : List CompiledNode} {once : Bool}
    (hengine : definition.engine.WellFormed)
    (hroot : RootCompiled (generatedNodes definition.engine) definition.engine.rootAnnotations roots
      added once)
    (h : definition.Holds (rootAbove definition.engine.rootAnnotations roots :: added)) :
    definition.WellFormed := by
  have hsegment := hroot.segment
  have hchildren := h.children_eq hsegment
  refine {
    engine := hengine
    ids := ?_
    root := ⟨_, h.get.mpr ⟨_, rfl, rfl⟩, rfl, rfl⟩
    nodes := ?_
    children_lt := ?_
    ranked := ?_
    uniqueParent := ?_
    covered := ?_
    arrayChildren := ?_
    scope := ?_
    controlsOnce := ?_
    annotationScopes := h.annotationScopes }
  · intro i node hnode
    obtain ⟨compiled, hget, rfl⟩ := h.get.mp hnode
    simpa using hsegment.id_eq hget
  · intro node hnode
    obtain ⟨compiled, hmem, rfl⟩ := h.mem.mp hnode
    rcases List.mem_cons.mp hmem with rfl | hmem
    · have hlayout : DefinitionNodeKind.autoGeneratedLayout ≠ .control ∧
          DefinitionNodeKind.autoGeneratedLayout ≠ .unsupported := by decide
      exact .inr ⟨rfl, rfl, hlayout, rfl, .inr ⟨rfl, rfl⟩⟩
    · exact h.content hsegment (hroot.contents compiled hmem)
  · intro node hnode child hchild
    obtain ⟨compiled, hmem, rfl⟩ := h.mem.mp hnode
    obtain ⟨m, hm, rfl, _⟩ := hsegment.children compiled hmem child hchild
    rw [h.length]
    simpa using (hsegment.mem_id hm).2
  · rw [hchildren]
    exact hsegment.piece.exists_ranked
  · rw [hchildren]
    exact hsegment.piece.uniqueParent
  · intro i hi
    rw [hchildren]
    refine hsegment.piece.reaches ?_
    rw [List.length_map, ← h.length]
    exact hi
  · intro node hnode hkind
    obtain ⟨compiled, hmem, rfl⟩ := h.mem.mp hnode
    obtain ⟨template, htemplate⟩ :=
      List.length_eq_one_iff.mp (hsegment.arrays compiled hmem hkind).2
    obtain ⟨m, hm, rfl, howner⟩ := hsegment.children compiled hmem template
      (htemplate ▸ List.mem_singleton_self template)
    refine ⟨m.id, m.toDefinitionNode, htemplate, h.get.mpr ⟨m, hsegment.get hm, rfl⟩, ?_⟩
    rw [howner, CompiledNode.childOwner, if_pos hkind]
  · intro node hnode hkind id hid child hchild
    obtain ⟨compiled, hmem, rfl⟩ := h.mem.mp hnode
    obtain ⟨m, hm, rfl, howner⟩ := hsegment.children compiled hmem id hid
    obtain ⟨m', hget, rfl⟩ := h.get.mp hchild
    obtain rfl := Option.some.inj ((hsegment.get hm).symm.trans hget)
    rw [howner, CompiledNode.childOwner, if_neg hkind]
  · intro node hnode other hother hcontrol hcontrol' howner hbinding
    obtain ⟨compiled, hmem, rfl⟩ := h.mem.mp hnode
    obtain ⟨compiled', hmem', rfl⟩ := h.mem.mp hother
    obtain rfl := hroot.control_unique hmem hmem' howner (beq_iff_eq.mpr hcontrol)
      (beq_iff_eq.mpr hcontrol') hbinding
    rfl

/-- Every data schema that compiles under an accepted layout. -/
theorem analyzeAt_wellFormed {compiler : Engine.GraphReader} {root : GraphLocation}
    (hroot : root.schema.WF) {uiSchema : Option (Ui.V1.UiSchema isUri)} {validator : Validator}
    {parser : Engine.JsonParser} {definition : DefinitionInner}
    (h : DefinitionInner.analyzeAt compiler root uiSchema validator parser = .ok definition) :
    definition.WellFormed := by
  obtain ⟨engine, hengine, h⟩ := bind_eq_ok.mp h
  obtain ⟨nodes, hnodes, h⟩ := bind_eq_ok.mp h
  obtain rfl := Except.ok.inj h
  have hengine := mapError_eq_ok.mp hengine
  obtain ⟨hprojected, hwf, _⟩ := Engine.compiled_wellFormed compiler.wf hroot hengine
  obtain ⟨roots, added, rfl, hcompiled⟩ :=
    compileNodes_compiled (generatedNodes_forest hprojected) (mapError_eq_ok.mp hnodes)
  exact hcompiled.wellFormed hwf ⟨rfl, rfl⟩

/-- The definition a form is created from. -/
def FormDefinition.analyzeAt (compiler : Engine.GraphReader) (root : GraphLocation)
    (hroot : root.schema.WF) (uiSchema : Option (Ui.V1.UiSchema isUri)) (validator : Validator)
    (parser : Engine.JsonParser) : Except DefinitionError FormDefinition :=
  match h : DefinitionInner.analyzeAt compiler root uiSchema validator parser with
  | .error error => .error error
  | .ok inner => .ok ⟨inner, analyzeAt_wellFormed hroot h⟩

open Engine.CompileSample in
/-- A text and an array of booleans, under a layout that shows all of it in a group. -/
example : ((DefinitionInner.analyzeAt compiler root (some ⟨.v1, [], .group ⟨⟨none, .empty⟩,
    ⟨"", none⟩, .auto ⟨⟨none, .empty⟩, ⟨.root, []⟩, ⟨[], [], []⟩⟩⟩⟩ :
      Option (Ui.V1.UiSchema fun _ => true)) ⟨fun _ => []⟩ Engine.Sample.parser).map
        fun definition => definition.nodes.map (·.children)).toOption =
    some [[4], [], [3], [], [1, 2]] := by decide +kernel

end Schemaform
