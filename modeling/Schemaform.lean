import Schemaform.Compile.Complete
import Schemaform.Compile.Definition
import Schemaform.Compile.SeedDefaults
import Schemaform.Compile.Selection
import Schemaform.Dioxus.Drafts
import Schemaform.Dioxus.EditSpec
import Schemaform.Form.Baseline
import Schemaform.Form.Bounds
import Schemaform.Form.Buffers
import Schemaform.Form.Identity
import Schemaform.Form.Paths
import Schemaform.Form.StoreLimits
import Schemaform.Json.Spelling
import Schemaform.Resources.DepthSpec
import Schemaform.Ui.Admission
import Schemaform.Ui.ExtensionsSpec
import Schemaform.Ui.RoundTrip
import Schemaform.Validation.Retention
