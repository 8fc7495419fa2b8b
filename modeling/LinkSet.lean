import LinkSet.Core.Common
import LinkSet.Core.Handlers
import LinkSet.Core.Holdings
import LinkSet.Core.Limits
import LinkSet.Core.Shutdown
import LinkSet.Core.States
import LinkSet.Core.Traffic
import LinkSet.Core.Transitions
import LinkSet.Epoch
import LinkSet.Framework.Base64
import LinkSet.Framework.Channel
import LinkSet.Framework.Codec
import LinkSet.Framework.Intervals
import LinkSet.Framework.Machine
import LinkSet.Framework.Reach
import LinkSet.Framework.Run
import LinkSet.Framework.SortedMap
import LinkSet.Framework.Text
import LinkSet.Links.Address
import LinkSet.Links.Connector
import LinkSet.Links.Latency
import LinkSet.Links.Manager
import LinkSet.Links.Peekable
import LinkSet.Links.Retry
import LinkSet.Links.Traffic
import LinkSet.Mail.Deals
import LinkSet.Mail.Ledger
import LinkSet.Mail.Provenance
import LinkSet.Mail.Queue
import LinkSet.Messages.Acks
import LinkSet.Messages.Damage
import LinkSet.Messages.Halves
import LinkSet.Messages.Healing
import LinkSet.Messages.InOrder
import LinkSet.Messages.Integrity
import LinkSet.Messages.Manager
import LinkSet.Messages.Progress
import LinkSet.Messages.Receiver
import LinkSet.Messages.Release
import LinkSet.Messages.Retransmit
import LinkSet.Messages.Sender
import LinkSet.Messages.Transfer
import LinkSet.Protocol
import LinkSet.Session.Agreement
import LinkSet.Session.Convergence
import LinkSet.Session.Decodable
import LinkSet.Session.Delivery
import LinkSet.Session.Epochs
import LinkSet.Session.Exchange
import LinkSet.Session.Frames
import LinkSet.Session.Handles
import LinkSet.Session.InTurn
import LinkSet.Session.Negotiation
import LinkSet.Session.Notice
import LinkSet.Session.OverTcp
import LinkSet.Session.Phase
import LinkSet.Session.Refinement
import LinkSet.Session.Reports
import LinkSet.Session.Resend
import LinkSet.Session.Robust
import LinkSet.Session.Silence
import LinkSet.Session.Timing
import LinkSet.Slices.AddRemove
import LinkSet.Slices.Manager
import LinkSet.Slices.NormalForm
import LinkSet.Slices.Reassembly
import LinkSet.Slices.Slicing
import LinkSet.Wire.Carriage
import LinkSet.Wire.Format
import LinkSet.Wire.PipeLink
import LinkSet.Wire.SocketAddr
import LinkSet.Wire.TcpLink
