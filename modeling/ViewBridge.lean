import ViewBridge.Main
import ViewBridge.Proofs.Classes.Defaults
import ViewBridge.Proofs.Markup.Parts
import ViewBridge.Proofs.Report.Agreement
import ViewBridge.Proofs.RoundTrip
import ViewBridge.Proofs.Totality
import ViewBridge.Proofs.View.Bindings
import ViewBridge.Proofs.Wrapper.Properties
import ViewBridge.Proofs.Config.Document
import ViewBridge.Proofs.Types.Optionals
import ViewBridge.Proofs.Types.Inference
import ViewBridge.Proofs.Types.Respelling
import ViewBridge.Proofs.View.Declared
import ViewBridge.Proofs.View.Segments
import ViewBridge.Proofs.View.Unknown
import ViewBridge.Proofs.Model.Imports
import ViewBridge.Proofs.Classes.Parameters
import ViewBridge.Proofs.Classes.Quoting
import ViewBridge.Proofs.Classes.Extents
import ViewBridge.Proofs.Source.Indentation
import ViewBridge.Proofs.Output.Indented
import ViewBridge.Proofs.Markup.Returns
import ViewBridge.Proofs.Widths
