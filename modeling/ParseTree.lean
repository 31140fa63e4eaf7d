import ParseTree.Arena.Serial
import ParseTree.Arena.Traversal
import ParseTree.Builder
import ParseTree.Outline
import ParseTree.Proofs.Ancestry
import ParseTree.Proofs.ChildLists
import ParseTree.Rule.Notation
import ParseTree.Session
import ParseTree.Proofs.Removal
import ParseTree.Proofs.Gathering
import ParseTree.Proofs.Cloning
import ParseTree.Proofs.Operators
import ParseTree.Proofs.Runs
import ParseTree.Proofs.Confinement
import ParseTree.Proofs.Agenda
import ParseTree.Proofs.Showings
import ParseTree.Proofs.WalkOrder
import ParseTree.Proofs.Stages
import ParseTree.Proofs.FirstDerivation
import ParseTree.Proofs.DerivationTrees
import ParseTree.Proofs.CountRuns
import ParseTree.Proofs.Counting
import ParseTree.Proofs.Preorder
import ParseTree.Proofs.Separation
import ParseTree.Proofs.Contraction
import ParseTree.Proofs.Contents
import ParseTree.Proofs.Enclosure
import ParseTree.Proofs.CloneShape
import ParseTree.Proofs.Restoring
import ParseTree.Proofs.BuilderTrees
import ParseTree.Proofs.Behind
import ParseTree.Proofs.WalkBehind
import ParseTree.Proofs.Repeating
import ParseTree.Proofs.Reordering
import ParseTree.Proofs.EditCommands
import ParseTree.Proofs.SpanNesting
import ParseTree.Proofs.TokenYield
import ParseTree.Proofs.LinkRange
import ParseTree.Proofs.Steps
import ParseTree.Proofs.Originals
import ParseTree.Proofs.TearHistory
import ParseTree.Proofs.Promotion
import ParseTree.Proofs.StructureVerdicts
import ParseTree.Proofs.LooseLinks
import ParseTree.Proofs.Demotion
import ParseTree.Proofs.Insertion
import ParseTree.Proofs.Sequences
import ParseTree.Proofs.Focus
import ParseTree.Proofs.Cancelling
import ParseTree.Proofs.Outlook
import ParseTree.Proofs.RemovalOrder
import ParseTree.Proofs.TreePartition
import ParseTree.Proofs.TreeStrings
import ParseTree.Proofs.Suppression
import ParseTree.Proofs.Isomorphisms
import ParseTree.Proofs.Reports
import ParseTree.Proofs.ChosenDerivation
import ParseTree.Proofs.DetachedChains
import ParseTree.Proofs.CoveredText
import ParseTree.Proofs.RuleLists
import ParseTree.Proofs.SharedNumbering
