import StyleBlocks.Main
import StyleBlocks.Proofs.Compilation.Insertions
import StyleBlocks.Proofs.Compilation.Conditions
import StyleBlocks.Proofs.Compilation.Longhands
import StyleBlocks.Proofs.Compilation.SelectorLists
import StyleBlocks.Proofs.Session.Order
import StyleBlocks.Proofs.Session.Accesses
import StyleBlocks.Proofs.Session.LoadOrder
import StyleBlocks.Proofs.Session.Sources
import StyleBlocks.Proofs.Session.Ancestry
import StyleBlocks.Proofs.Stylesheet.RoundTrip
import StyleBlocks.Proofs.Stylesheet.Reprinting
import StyleBlocks.Proofs.Stylesheet.Traversals
import StyleBlocks.Proofs.Compilation.Rewriting
import StyleBlocks.Proofs.Selector.Coverage
import StyleBlocks.Proofs.CommandLine
import StyleBlocks.Proofs.Session.Styling
import StyleBlocks.Proofs.Compilation.Clearing
import StyleBlocks.Proofs.Catalog.Reachable
import StyleBlocks.Proofs.Catalog.Memo
import StyleBlocks.Proofs.Compilation.Exports
import StyleBlocks.Proofs.Session.Implementations
import StyleBlocks.Proofs.Compilation.Numbers
