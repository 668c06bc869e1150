import SciCalc.Proofs.AngleTrees
import SciCalc.Proofs.Journals
import SciCalc.Proofs.Ledgers
import SciCalc.Proofs.Percents
import SciCalc.Proofs.Squaring
import SciCalc.Proofs.Transcripts
import SciCalc.Proofs.Workings
import SciCalc.Settings
import SciCalc.Store.Folder
import SciCalc.Store.Memory
import SciCalc.Store.Switched
import SciCalc.Window
import SciCalc.Proofs.Tasks
import SciCalc.Proofs.Rejections
import SciCalc.Proofs.Comparing
import SciCalc.Proofs.Nearest
import SciCalc.Proofs.Settling
import SciCalc.Proofs.Chaining
import SciCalc.Proofs.Unbracketing
import SciCalc.Proofs.Displays
import SciCalc.Proofs.Lagging
import SciCalc.Proofs.Tallying
import SciCalc.Proofs.Misreadings
import SciCalc.Proofs.Closing
import SciCalc.Proofs.Sums
import SciCalc.Proofs.Remembering
import SciCalc.Proofs.Results
import SciCalc.Proofs.Accumulating
import SciCalc.Proofs.Dependence
import SciCalc.Proofs.Counting
import SciCalc.Proofs.Halfway
import SciCalc.Proofs.Opposites
import SciCalc.Proofs.Completing
import SciCalc.Proofs.Dialects
import SciCalc.Proofs.Marks
import SciCalc.Proofs.Shorthands
import SciCalc.Proofs.Products
import SciCalc.Proofs.Stacking
import SciCalc.Proofs.Recalling
import SciCalc.Proofs.Pairs
import SciCalc.Proofs.Frames
import SciCalc.Proofs.Blanks
