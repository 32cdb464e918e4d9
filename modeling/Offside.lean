import Offside.Main
import Offside.Proofs.Positions
import Offside.Proofs.Literals
import Offside.Proofs.Reaches
import Offside.Proofs.Seams
import Offside.Proofs.Pieces
import Offside.Proofs.Reading
import Offside.Proofs.Edges
import Offside.Proofs.TreeSpelling
import Offside.Proofs.Weaving
import Offside.Proofs.TwinTrees
import Offside.Proofs.Abreast
import Offside.Proofs.Rereading
import Offside.Proofs.Turns
import Offside.Proofs.LineStarts
import Offside.Proofs.Programs
import Offside.Proofs.ProgramSource
import Offside.Proofs.ProgramLayout
import Offside.Proofs.TwinLayouts
import Offside.Proofs.Reindenting
import Offside.Proofs.Respacing
import Offside.Proofs.Placement
import Offside.Proofs.LineJoin
import Offside.Proofs.TreeJoin
import Offside.Proofs.LayoutJoin
import Offside.Proofs.OutputJoin
import Offside.Proofs.Joining
import Offside.Proofs.Announcing
import Offside.Proofs.Bracing
import Offside.Proofs.BracedTrees
import Offside.Proofs.KeptArrows
import Offside.Proofs.OtherRules
import Offside.Proofs.Tiling
import Offside.Proofs.Grammar
import Offside.Proofs.Lookups
import Offside.Proofs.Reports
import Offside.Proofs.LexingJoin
import Offside.Proofs.Balance
import Offside.Proofs.Excerpts
import Offside.Proofs.TreeSpans
import Offside.Proofs.Octets
import Offside.Proofs.FileWriting
import Offside.Proofs.FilesKept
import Offside.Proofs.Requests
import Offside.Proofs.Printing
import Offside.Proofs.Prefixes
import Offside.Proofs.Surroundings
import Offside.Proofs.Outlines
import Offside.Proofs.Dedents
import Offside.Proofs.Rendering
import Offside.Proofs.Colours
import Offside.Proofs.Carets
import Offside.Proofs.ShownLines
import Offside.Proofs.Repetitions
import Offside.Proofs.Arrowless
import Offside.Proofs.Rewriting
import Offside.Proofs.OffsetOrder
import Offside.Proofs.Gathering
import Offside.Proofs.Recall
import Offside.Proofs.Places
import Offside.Proofs.Climbing
import Offside.Proofs.Nearest
