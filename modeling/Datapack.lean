import Datapack.Main
import Datapack.Proofs.Simulation.Script
import Datapack.Proofs.Resolution.Script
import Datapack.Proofs.Allocation
import Datapack.Proofs.Assignment
import Datapack.Proofs.Report.Script
import Datapack.Proofs.Printing.Script
import Datapack.Proofs.Constants
import Datapack.Proofs.Lines
import Datapack.Proofs.Layers
import Datapack.Proofs.Formula
import Datapack.Proofs.Operands
import Datapack.Proofs.Numbering
import Datapack.Proofs.Progression
