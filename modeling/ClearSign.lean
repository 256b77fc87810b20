import ClearSign.Proofs.Field.Framing
import ClearSign.Proofs.Path.NestedLoops
import ClearSign.Proofs.Session.History
import ClearSign.Proofs.Session.Stranding
import ClearSign.Proofs.Descriptor.SignedBytes
import ClearSign.Proofs.Session.Attachment
import ClearSign.Proofs.Session.Reset
import ClearSign.Proofs.Review.Book
import ClearSign.Proofs.Review.Telling
import ClearSign.Proofs.Session.Booking
import ClearSign.Proofs.Session.Ledger
import ClearSign.Proofs.Tlv.Grammar
import ClearSign.Proofs.Session.Absorption
import ClearSign.Proofs.Session.Addressee
import ClearSign.Proofs.Field.Visibility
import ClearSign.Proofs.Field.Gating
import ClearSign.Proofs.Tlv.Writing
import ClearSign.Proofs.Descriptor.Interchange
import ClearSign.Proofs.Session.Challenge
import ClearSign.Proofs.Session.Root
import ClearSign.Proofs.Path.Words
import ClearSign.Proofs.Calldata.Buffer
import ClearSign.Proofs.Session.Chunking
import ClearSign.Proofs.Review.Line
import ClearSign.Proofs.Field.Labels
import ClearSign.Proofs.Session.Ceilings
import ClearSign.Proofs.Path.Replay
import ClearSign.Proofs.Text.Calendar
import ClearSign.Proofs.Session.LegChain
import ClearSign.Proofs.Field.NestedCalls
import ClearSign.Proofs.Text.Numeral
import ClearSign.Proofs.Session.Reassembly
import ClearSign.Proofs.Field.Numbers
import ClearSign.Proofs.Tlv.Streaming
import ClearSign.Proofs.Value.Writing
import ClearSign.Proofs.Field.Limits
import ClearSign.Proofs.Session.Closing
import ClearSign.Proofs.Session.Naming
import ClearSign.Proofs.Field.FanOut
import ClearSign.Proofs.Path.Tail
import ClearSign.Proofs.Session.Atomicity
import ClearSign.Proofs.Field.Addresses
import ClearSign.Proofs.Session.Inheritance
import ClearSign.Proofs.Field.Width
import ClearSign.Proofs.Path.Slices
import ClearSign.Proofs.Calldata.Packing
import ClearSign.Proofs.Descriptor.Texts
