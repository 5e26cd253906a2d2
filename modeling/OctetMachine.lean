import OctetMachine.Interchange.Machine
import OctetMachine.Machine.Run
import OctetMachine.Proofs.Listing.Reassembly
import OctetMachine.Proofs.Machine.Safety
import OctetMachine.Proofs.Assembly.Joining
import OctetMachine.Proofs.Instruction.Canonical
import OctetMachine.Proofs.Machine.Configurations
import OctetMachine.Proofs.Machine.Fetched
import OctetMachine.Proofs.Machine.Log
import OctetMachine.Proofs.Assembly.Meaning
import OctetMachine.Proofs.Machine.Causes
import OctetMachine.Proofs.Assembly.Labels
import OctetMachine.Proofs.Assembly.FirstError
import OctetMachine.Proofs.Assembly.EndOfInput
import OctetMachine.Proofs.Listing.Failure
import OctetMachine.Proofs.Machine.Rereading
import OctetMachine.Proofs.Value.Componentwise
import OctetMachine.Proofs.Machine.Comparing
import OctetMachine.Proofs.Machine.Literals
import OctetMachine.Proofs.Value.Magnitude
import OctetMachine.Proofs.Machine.Access
import OctetMachine.Proofs.Code.Driving
import OctetMachine.Proofs.Listing.Lossless
import OctetMachine.Proofs.Machine.Reporting
import OctetMachine.Proofs.Source.Scanning
