import LayoutScript.Main
import LayoutScript.Proofs.BlankLines
import LayoutScript.Proofs.ComponentLines
import LayoutScript.Proofs.CursorToken
import LayoutScript.Proofs.DeclaredFunctions
import LayoutScript.Proofs.DocumentStore
import LayoutScript.Proofs.FaultContext
import LayoutScript.Proofs.LineReader
import LayoutScript.Proofs.LineReturns
import LayoutScript.Proofs.ListedSources
import LayoutScript.Proofs.ManifestRoundTrip
import LayoutScript.Proofs.MarkupText
import LayoutScript.Proofs.PrintedText
import LayoutScript.Proofs.SlotNames
import LayoutScript.Proofs.StateReads
import LayoutScript.Proofs.Stopping
import LayoutScript.Proofs.UriRoundTrip
import LayoutScript.Proofs.WalkOrder
import LayoutScript.Proofs.WordTokens
