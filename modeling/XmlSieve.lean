import XmlSieve.Bytes.Cursor
import XmlSieve.Host.Call
import XmlSieve.Stream.Reader
import XmlSieve.Proofs.Token.Schedule
import XmlSieve.Proofs.Stream.Assembled
import XmlSieve.Proofs.Text.Encoding
import XmlSieve.Proofs.Text.Escaping
import XmlSieve.Proofs.Token.AttributeLists
import XmlSieve.Proofs.Token.Rereading
import XmlSieve.Proofs.Stream.Ending
import XmlSieve.Proofs.Stream.Latitude
import XmlSieve.Proofs.Stream.Output
import XmlSieve.Proofs.Stream.PassThrough
import XmlSieve.Proofs.Stream.Tracking
import XmlSieve.Proofs.Element.Fragments
import XmlSieve.Proofs.Stream.Renaming
import XmlSieve.Proofs.Element.Offspring
import XmlSieve.Proofs.Stream.Families
import XmlSieve.Proofs.Stream.Raising
import XmlSieve.Proofs.Selector.Positions
import XmlSieve.Proofs.Token.Declarations
import XmlSieve.Proofs.Stream.Updating
import XmlSieve.Proofs.Stream.Counters
import XmlSieve.Proofs.Stream.Stacks
import XmlSieve.Proofs.Stream.Latecomers
import XmlSieve.Proofs.Element.Verbatim
import XmlSieve.Proofs.Stream.Fidelity
import XmlSieve.Proofs.Token.Completion
import XmlSieve.Proofs.Stream.Finality
import XmlSieve.Proofs.Stream.Surfacing
import XmlSieve.Proofs.Stream.Driven
import XmlSieve.Proofs.Host.Comparison
import XmlSieve.Proofs.Host.Recovery
import XmlSieve.Proofs.Element.NodeTrees
import XmlSieve.Proofs.Element.Tidying
import XmlSieve.Proofs.Stream.Delivered
import XmlSieve.Proofs.Element.Regrouping
import XmlSieve.Proofs.Stream.Replay
import XmlSieve.Proofs.Stream.Observers
import XmlSieve.Proofs.Token.StartTags
import XmlSieve.Proofs.Host.Takings
import XmlSieve.Proofs.Token.Lines
import XmlSieve.Proofs.Token.Validity
import XmlSieve.Proofs.Stream.Registries
import XmlSieve.Proofs.Stream.Traces
import XmlSieve.Proofs.Element.Deposits
import XmlSieve.Proofs.Token.BufferRuns
