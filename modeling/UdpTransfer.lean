import UdpTransfer.Core.Loop
import UdpTransfer.Core.Links
import UdpTransfer.Core.Threads
import UdpTransfer.Core.Memory
import UdpTransfer.Core.Runs
import UdpTransfer.Core.Queues
import UdpTransfer.Core.Bytes
import UdpTransfer.Core.Records
import UdpTransfer.Core.Folds
import UdpTransfer.Core.Writes
import UdpTransfer.Core.Register
import UdpTransfer.Core.Machines
import UdpTransfer.Receiver.SBuffer
import UdpTransfer.Receiver.Parts
import UdpTransfer.Receiver.Ring
import UdpTransfer.Receiver.Merging
import UdpTransfer.Receiver.Refinement
import UdpTransfer.Receiver.Layout
import UdpTransfer.Receiver.Calls
import UdpTransfer.Receiver.Session
import UdpTransfer.Receiver.Levels
import UdpTransfer.Receiver.Coverage
import UdpTransfer.Receiver.Stream
import UdpTransfer.Receiver.Duplicates
import UdpTransfer.Receiver.Undefined
import UdpTransfer.Receiver.Termination
import UdpTransfer.Receiver.Acceptance
import UdpTransfer.Receiver.InOrder
import UdpTransfer.Receiver.Bounds
import UdpTransfer.Receiver.Space
import UdpTransfer.Receiver.Reassembly
import UdpTransfer.Wire.Crc32
import UdpTransfer.Wire.Datagram
import UdpTransfer.Wire.Remoteisset
import UdpTransfer.Wire.Garbled
import UdpTransfer.Wire.Detection
import UdpTransfer.Sender.CBuffer
import UdpTransfer.Sender.Window
import UdpTransfer.Sender.Steps
import UdpTransfer.Sender.Session
import UdpTransfer.Sender.Packets
import UdpTransfer.Sender.Stream
import UdpTransfer.Sender.Finality
import UdpTransfer.Sender.Slots
import UdpTransfer.Sender.Correspondence
import UdpTransfer.Sender.Order
import UdpTransfer.Sender.Accounting
import UdpTransfer.Sender.Backlog
import UdpTransfer.Sender.Estimator
import UdpTransfer.Sender.Levels
import UdpTransfer.Timer.DeltaList
import UdpTransfer.Timer.Chain
import UdpTransfer.Timer.Insertion
import UdpTransfer.Timer.Expiration
import UdpTransfer.Timer.Ledger
import UdpTransfer.Timer.Clock
import UdpTransfer.Timer.Schedule
import UdpTransfer.Timer.Ticks
import UdpTransfer.Timer.Decoding
import UdpTransfer.Timer.Levels
import UdpTransfer.System.Transfer
import UdpTransfer.System.EndToEnd
import UdpTransfer.System.Completion
import UdpTransfer.System.Daemons
import UdpTransfer.System.Outstanding
import UdpTransfer.System.Rounds
import UdpTransfer.System.Ftps
import UdpTransfer.System.Replies
import UdpTransfer.System.Finishing
import UdpTransfer.System.Ftpc
import UdpTransfer.System.Copy
import UdpTransfer.System.Copied
import UdpTransfer.System.InTurn
import UdpTransfer.System.Noise
import UdpTransfer.System.Channels
import UdpTransfer.System.Noise
