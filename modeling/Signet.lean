import Signet.Integer.Lemmas
import Signet.Key.Generate
import Signet.Key.Packet
import Signet.Key.Ring
import Signet.Signature.Sealing
import Signet.Proofs.Integer.ByteStrings
import Signet.Proofs.Integer.Canonical
import Signet.Proofs.Integer.CommonDivisor
import Signet.Proofs.Integer.Data
import Signet.Proofs.Integer.Division
import Signet.Proofs.Integer.Inverse
import Signet.Proofs.Integer.Numerals
import Signet.Proofs.Integer.Octets
import Signet.Proofs.Integer.Places
import Signet.Proofs.Integer.Power
import Signet.Proofs.Integer.Product
import Signet.Proofs.Integer.Rows
import Signet.Proofs.Integer.ShortDivision
import Signet.Proofs.Integer.Sum
import Signet.Proofs.Checksum.Burst
import Signet.Proofs.Checksum.Serial
import Signet.Proofs.Cipher.Aes
import Signet.Proofs.Cipher.Blockwise
import Signet.Proofs.Cipher.Buffer
import Signet.Proofs.HashChain
import Signet.Proofs.Packet
import Signet.Proofs.Key.Cancellation
import Signet.Proofs.Key.Damage
import Signet.Proofs.Key.Generation
import Signet.Proofs.Key.Header
import Signet.Proofs.Key.InRange
import Signet.Proofs.Key.Lossless
import Signet.Proofs.Key.Meets
import Signet.Proofs.Key.Operation
import Signet.Proofs.Key.Permutation
import Signet.Proofs.Key.PrivateFormat
import Signet.Proofs.Key.PublicFormat
import Signet.Proofs.Key.Recombination
import Signet.Proofs.Key.Ring
import Signet.Proofs.Key.Soundness
import Signet.Proofs.Key.Storage
import Signet.Proofs.Key.Trace
import Signet.Proofs.Key.Validation
import Signet.Proofs.Primality.Acceptance
import Signet.Proofs.Primality.First
import Signet.Proofs.Primality.Loop
import Signet.Proofs.Primality.Rounds
import Signet.Proofs.Primality.Search
import Signet.Proofs.Primality.StepBound
import Signet.Proofs.Primality.Strong
import Signet.Proofs.Primality.Trace
import Signet.Proofs.Primality.Verdict
import Signet.Proofs.Progress
import Signet.Proofs.Signature.Format
import Signet.Proofs.Signature.Layout
import Signet.Proofs.Signature.Opening
import Signet.Proofs.Signature.Padding
import Signet.Proofs.Signature.Payload
import Signet.Proofs.Signature.RoundTrip
import Signet.Proofs.Timestamp
