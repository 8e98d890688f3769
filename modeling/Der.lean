import Der.Octets
import Der.Header
import Der.Value
import Der.Secret
import Der.Content.Integer
import Der.Content.ObjectIdentifier
import Der.Content.Text
import Der.Content.Time
import Der.Decoder
import Der.Encoder
import Der.Overhang
import Der.Element
import Der.Codec.Basic
import Der.Codec.Primitive
import Der.Codec.Structure
import Der.Codec.Collection
import Der.Codec.Tagging
import Der.Codec.Open
import Der.Schema.Declaration
import Der.Keys.PublicKeyInfo
import Der.Proofs.Octets
import Der.Proofs.Base128
import Der.Proofs.Header
import Der.Proofs.Writing
import Der.Proofs.Reading
import Der.Proofs.Content.Integer
import Der.Proofs.Content.Text
import Der.Proofs.Digits
import Der.Proofs.Results
import Der.Proofs.Content.ObjectIdentifier
import Der.Proofs.Calendar
import Der.Proofs.Values
import Der.Proofs.Codec.ContentRule
import Der.Proofs.Schema.Declared
import Der.Proofs.Content.Time
import Der.Proofs.TwoPass
import Der.Proofs.Canonical
import Der.Proofs.ByContent
import Der.Proofs.Locality
import Der.Proofs.Finding
import Der.Proofs.Codec.Restores
import Der.Proofs.Codec.Members
import Der.Proofs.Schema.Distinct
import Der.Proofs.RoundTrip
import Der.Proofs.Framing
import Der.Proofs.Capture
import Der.Proofs.Extent
import Der.Proofs.Codec.Refusals
import Der.Proofs.Faults
import Der.Proofs.Schema.Ambiguity
import Der.Proofs.Cursor
import Der.Proofs.DepthLimit
import Der.Proofs.Constraints
import Der.Proofs.Layout
import Der.Proofs.Schema.Plain
import Der.Proofs.Keys.Rsa
import Der.Proofs.Acceptance
import Der.Proofs.Codec.Grammar
import Der.Proofs.Schema.Grammar
import Der.Proofs.Schema.CanonicalOrder
import Der.Proofs.Schema.Multiset
import Der.Proofs.Keys.PublicKeyInfo
import Der.Proofs.Content.TwosComplement
import Der.Proofs.Content.Subidentifiers
import Der.Proofs.Element
import Der.Proofs.Times
import Der.Proofs.CertificateTimes
import Der.Proofs.BitSequences
import Der.Proofs.Stream
import Der.Proofs.Buffer
import Der.Proofs.Tagging
import Der.Proofs.Integers
import Der.Proofs.Overhang
import Der.Proofs.RequestedTags
import Der.Proofs.GeneralTimes
import Der.Proofs.SecretLife
import Der.Proofs.Progress
import Der.Proofs.CanonicalComparison
import Der.Proofs.ElementLoops
