import ModuleBundler.CommandLine
import ModuleBundler.Main
import ModuleBundler.Proofs.Assets.Loading
import ModuleBundler.Proofs.Bundle.Assembly
import ModuleBundler.Proofs.Bundle.Parts
import ModuleBundler.Proofs.Bundle.Recovery
import ModuleBundler.Proofs.Files.Removal
import ModuleBundler.Proofs.Files.Writes
import ModuleBundler.Proofs.Graph.Coverage
import ModuleBundler.Proofs.Graph.Order
import ModuleBundler.Proofs.Graph.Permutation
import ModuleBundler.Proofs.Graph.Stability
import ModuleBundler.Proofs.Options.Text
import ModuleBundler.Proofs.Path.Resolution
import ModuleBundler.Proofs.Project.Changes
import ModuleBundler.Proofs.Project.Containment
import ModuleBundler.Proofs.Project.Entry
import ModuleBundler.Proofs.Project.Nodes
import ModuleBundler.Proofs.Project.Output
import ModuleBundler.Proofs.Project.Shown
import ModuleBundler.Proofs.Scan.Exclusion
import ModuleBundler.Proofs.Script.Collisions
import ModuleBundler.Proofs.Script.Idempotence
import ModuleBundler.Proofs.Script.Sources
import ModuleBundler.Proofs.Script.Verbatim
import ModuleBundler.Proofs.Text.Units
