import TypeLattice.Store.Laws
import TypeLattice.Ty.Lattice
import TypeLattice.Proofs.NormalTree
import TypeLattice.Proofs.StoreInvariant
import TypeLattice.Proofs.Simulation
import TypeLattice.Proofs.Refinement
import TypeLattice.Proofs.Reachable
import TypeLattice.Proofs.Outcome
import TypeLattice.Proofs.Commutativity
import TypeLattice.Proofs.TotalMeet
import TypeLattice.Proofs.MeetRules
import TypeLattice.Proofs.ShapeClasses
import TypeLattice.Proofs.Nullability
import TypeLattice.Proofs.ClassBounds
import TypeLattice.Proofs.Associativity
import TypeLattice.Proofs.StoreOrder
import TypeLattice.Proofs.GreatestLowerBound
import TypeLattice.Proofs.Absorption
import TypeLattice.Proofs.NilFreeLattice
import TypeLattice.Proofs.Regrouping
import TypeLattice.Proofs.MeetGrouping
import TypeLattice.Proofs.NamedTypes
import TypeLattice.Proofs.Erasure
import TypeLattice.Proofs.NameErasure
import TypeLattice.Proofs.ConversionRules
import TypeLattice.Proofs.ConversionChain
import TypeLattice.Proofs.ConversionOrder
import TypeLattice.Proofs.CanonicalStore
import TypeLattice.Proofs.OperandOrder
import TypeLattice.Proofs.DualInvolution
import TypeLattice.Proofs.NormalForm
import TypeLattice.Proofs.ControlClash
import TypeLattice.Proofs.JoinDomain
import TypeLattice.Proofs.UpperBound
import TypeLattice.Proofs.DualMemory
import TypeLattice.Proofs.BelowCenter
import TypeLattice.Proofs.Repetition
import TypeLattice.Proofs.StructuralSubtyping
import TypeLattice.Proofs.ConstantOrder
import TypeLattice.Proofs.ExactFloats
import TypeLattice.Proofs.NullableTypes
import TypeLattice.Proofs.SettledTypes
import TypeLattice.Proofs.NameTransparency
import TypeLattice.Proofs.Alignment
import TypeLattice.Proofs.Lockstep
import TypeLattice.Proofs.FiniteSets
import TypeLattice.Proofs.FirstFields
import TypeLattice.Proofs.CallTrace
import TypeLattice.Proofs.Termination
