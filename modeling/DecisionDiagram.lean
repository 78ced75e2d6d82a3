import DecisionDiagram.Main
import DecisionDiagram.Proofs.Canonicity
import DecisionDiagram.Proofs.Memory
import DecisionDiagram.Schedule
import DecisionDiagram.Proofs.Issuing
import DecisionDiagram.Proofs.Recall
import DecisionDiagram.Proofs.Replay
import DecisionDiagram.Proofs.Holding
import DecisionDiagram.Proofs.Closure
import DecisionDiagram.Proofs.Shape
import DecisionDiagram.Proofs.Operands
import DecisionDiagram.Proofs.Meaning
import DecisionDiagram.Proofs.Interleaving
import DecisionDiagram.Proofs.Operators
import DecisionDiagram.Proofs.Models
import DecisionDiagram.Proofs.Chessboard
import DecisionDiagram.Proofs.Queens
import DecisionDiagram.Proofs.Greatest
import DecisionDiagram.Proofs.Restrictions
import DecisionDiagram.Proofs.Footprint
import DecisionDiagram.Proofs.Descent
import DecisionDiagram.Proofs.Containment
import DecisionDiagram.Proofs.Outline
import DecisionDiagram.Proofs.Nesting
import DecisionDiagram.Proofs.Lookups
import DecisionDiagram.Proofs.Descendants
import DecisionDiagram.Proofs.Listing
import DecisionDiagram.Proofs.Making
import DecisionDiagram.Proofs.Cofactors
import DecisionDiagram.Proofs.Complement
import DecisionDiagram.Proofs.Gathering
import DecisionDiagram.Proofs.Occupancy
import DecisionDiagram.Proofs.Reservation
import DecisionDiagram.Proofs.Hashing
