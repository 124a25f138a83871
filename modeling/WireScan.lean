import WireScan.Index
import WireScan.Window
import WireScan.Text.Utf8
import WireScan.Fault
import WireScan.Byte
import WireScan.Note
import WireScan.Tape
import WireScan.Buffer
import WireScan.Buffer.Fixed
import WireScan.Buffer.Growing
import WireScan.Scan
import WireScan.Scan.Lemmas
import WireScan.Numeral.Binary64
import WireScan.Numeral.Spelling
import WireScan.Numeral
import WireScan.Head
import WireScan.Head.Reader
import WireScan.Head.Agreement
import WireScan.Mark
import WireScan.Session
import WireScan.Script
import WireScan.Command
import WireScan.Files
import WireScan.Intake
import WireScan.Options
import WireScan.Main
import WireScan.Proofs.Soundness
import WireScan.Proofs.Stability
import WireScan.Proofs.Pieces
import WireScan.Proofs.Moves
import WireScan.Proofs.Timeline
import WireScan.Proofs.Rollback
import WireScan.Proofs.Staleness
import WireScan.Proofs.Encoding
import WireScan.Proofs.Wire
import WireScan.Proofs.EmptyLine
import WireScan.Proofs.Trail
import WireScan.Proofs.Ledger
import WireScan.Proofs.Coverage
import WireScan.Proofs.Views
import WireScan.Proofs.Progress
import WireScan.Proofs.Placement
import WireScan.Proofs.Literals
import WireScan.Proofs.TwoPasses
import WireScan.Proofs.Capacity
import WireScan.Proofs.Rounding
import WireScan.Proofs.Decimals
import WireScan.Proofs.LookAhead
import WireScan.Proofs.Waiting
import WireScan.Proofs.StopBytes
import WireScan.Proofs.SingleBytes
import WireScan.Proofs.Transparency
import WireScan.Proofs.Defects
import WireScan.Proofs.Growth
import WireScan.Proofs.Room
import WireScan.Proofs.Sinks
