import BrushLink.Main
import BrushLink.Proofs.Decode.Nesting
import BrushLink.Proofs.Scale.Following
import BrushLink.Proofs.Selection.Positions
import BrushLink.Proofs.Selection.Undrivable
import BrushLink.Proofs.Signal.DragStart
import BrushLink.Proofs.Signal.Inverting
import BrushLink.Proofs.Signal.OwnerScope
import BrushLink.Proofs.Signal.Tracker
import BrushLink.Proofs.View.GeneratedNames
import BrushLink.Proofs.View.References
