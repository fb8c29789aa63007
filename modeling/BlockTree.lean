import BlockTree.Bytes
import BlockTree.Text
import BlockTree.Text.Quoted
import BlockTree.Error
import BlockTree.Block
import BlockTree.Hasher
import BlockTree.Hasher.Kind
import BlockTree.Levels
import BlockTree.AuditPath
import BlockTree.Tree
import BlockTree.Tree.History
import BlockTree.Checked
import BlockTree.Checked.Cursor
import BlockTree.Binary64
import BlockTree.Report
import BlockTree.Folder
import BlockTree.Benchmark
import BlockTree.Command.Arguments
import BlockTree.Command.Request
import BlockTree.Command.Run
import BlockTree.Main
import BlockTree.Proofs.Blocks
import BlockTree.Proofs.Rows
import BlockTree.Proofs.History
import BlockTree.Proofs.RowSizes
import BlockTree.Proofs.Locality
import BlockTree.Proofs.Cursors
import BlockTree.Proofs.Binding
import BlockTree.Proofs.AuditPath
import BlockTree.Proofs.Forgery
import BlockTree.Proofs.PathShape
import BlockTree.Proofs.InnerNodes
import BlockTree.Proofs.Commitment
import BlockTree.Proofs.SplitRoot
import BlockTree.Proofs.Padding
import BlockTree.Proofs.BlockCounts
import BlockTree.Proofs.Comparison
import BlockTree.Proofs.Operations
import BlockTree.Proofs.ByteChanges
import BlockTree.Proofs.ByteStream
import BlockTree.Proofs.Checked.Blocks
import BlockTree.Proofs.Checked.Trees
import BlockTree.Proofs.Sizes
import BlockTree.Proofs.Digits
import BlockTree.Proofs.DigestTexts
import BlockTree.Proofs.Command.Steps
import BlockTree.Proofs.Command.Reporting
import BlockTree.Proofs.Reports
import BlockTree.Proofs.OrderStatistics
import BlockTree.Proofs.Folder
import BlockTree.Proofs.Trials
import BlockTree.Proofs.Benchmarks

/-!
# Hash trees over the blocks of a buffer

A buffer is cut into blocks, the blocks are hashed, and the digests are combined row by row up to
one root. The library holds the trees, the paths that prove single blocks, the comparison of trees,
two hashers, reports of timings, and the commands that do all this with files.

The definitions come first, from bytes, texts and blocks (`Bytes`, `Text`, `Block`) over hashers,
rows and paths (`Hasher`, `Levels`, `AuditPath`) to trees and what becomes of them (`Tree`,
`Tree.History`), and on to benchmarks and commands (`Benchmark`, `Command.Run`). `Checked` has the
operations of trees and cursors once more in machine words.

The theory is under `Proofs`, in the same order:

* what rows say about each other and what a tree remembers: `Rows`, `History`, `RowSizes`,
  `Locality`, `Cursors`;
* what a root and a path bind: `Binding`, `AuditPath`, `Forgery`, `PathShape`, `InnerNodes`,
  `Commitment`, and both policies for odd digests: `SplitRoot`, `Padding`, `BlockCounts`;
* trees side by side and in use: `Comparison`, `Operations`, `ByteChanges`, `ByteStream`, and their
  operations in machine words: `Checked.Blocks`, `Checked.Trees`, `Sizes`;
* texts, commands and benchmarks: `DigestTexts`, `Command.Reporting`, `Reports`, `OrderStatistics`,
  `Folder`, `Trials`, `Benchmarks`.
-/
