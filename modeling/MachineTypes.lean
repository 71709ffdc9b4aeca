import MachineTypes.Codec.Spellings
import MachineTypes.Codec.Ty
import MachineTypes.Proofs.Absorption
import MachineTypes.Proofs.Acceptance
import MachineTypes.Proofs.Associativity
import MachineTypes.Proofs.ByName
import MachineTypes.Proofs.CacheHistory
import MachineTypes.Proofs.CanonicalRun
import MachineTypes.Proofs.FieldSearch
import MachineTypes.Proofs.FirstEvent
import MachineTypes.Proofs.FirstFailure
import MachineTypes.Proofs.JoinOrder
import MachineTypes.Proofs.LookupOfText
import MachineTypes.Proofs.Overlay
import MachineTypes.Proofs.Refinements
import MachineTypes.Proofs.RegisteredSpellings
import MachineTypes.Proofs.RoundTrip
import MachineTypes.Proofs.StateViolation
import MachineTypes.Proofs.UniqueReading
import MachineTypes.Proofs.UniqueWrites
import MachineTypes.Proofs.Weight
import MachineTypes.Session.Run
