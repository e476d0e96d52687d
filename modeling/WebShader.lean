import WebShader.Compiler.Pipeline
import WebShader.Include.FileTree
import WebShader.Proofs.Coercion.LayoutFree
import WebShader.Proofs.Coercion.Protection
import WebShader.Proofs.Compiler.InitialValues
import WebShader.Proofs.Conditional.Expansion
import WebShader.Proofs.Conditional.Reprocessing
import WebShader.Proofs.Definition.Claimed
import WebShader.Proofs.Definition.Outline
import WebShader.Proofs.Definition.Repetition
import WebShader.Proofs.Definition.Rereading
import WebShader.Proofs.Include.Agreement
import WebShader.Proofs.Include.Containment
import WebShader.Proofs.Include.Depth
import WebShader.Proofs.Lowering.Idempotence
import WebShader.Proofs.Lowering.Removal
import WebShader.Proofs.Preset.RoundTrip
import WebShader.Proofs.Sharing.Assignment
import WebShader.Proofs.Sharing.RegistryRun
import WebShader.Proofs.Sharing.Repetition
import WebShader.Proofs.Stage.Sections
import WebShader.Proofs.Token.Matching
import WebShader.Proofs.Token.Renaming
