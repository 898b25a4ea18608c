import Coverage.BlockMap
import Coverage.Collection.Format
import Coverage.Main
import Coverage.Manifest.Format
import Coverage.Proofs.BlockMap
import Coverage.Proofs.Collection
import Coverage.Proofs.Dump.Normal
import Coverage.Proofs.Dump.Spelling
import Coverage.Proofs.Filter.Spelling
import Coverage.Proofs.LineMap.Narrowest
import Coverage.Proofs.Manifest.Repeats
import Coverage.Proofs.Path.Displayed
import Coverage.Proofs.Percent
import Coverage.Proofs.Reach.Blocks
import Coverage.Proofs.Recorder.Streams
import Coverage.Proofs.Report.Alignment
import Coverage.Proofs.Report.Interleaving
import Coverage.Proofs.Report.Marks
import Coverage.Proofs.Run.Files
import Coverage.Proofs.Session.Growth
import Coverage.Proofs.Session.Reload
import Coverage.Proofs.Snapshot.Consistency
import Coverage.Proofs.Snapshot.Idle
import Coverage.Proofs.Snapshot.Inverted
import Coverage.Proofs.Snapshot.NodeOrder
import Coverage.Proofs.Table.Colour
import Coverage.Proofs.Table.Columns
import Coverage.Proofs.Table.Footer
import Coverage.Proofs.Table.Parts
import Coverage.Proofs.Table.Reload
import Coverage.Table.Format
