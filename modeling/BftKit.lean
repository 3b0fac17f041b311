import BftKit.Addressing
import BftKit.CommandPool.Representation
import BftKit.CommandPool.Sliding
import BftKit.Crypto.Counting
import BftKit.Crypto.Failing
import BftKit.Encoding
import BftKit.Hotstuff.Certificates
import BftKit.Hotstuff.Execution
import BftKit.Hotstuff.Leader
import BftKit.Hotstuff.Pending
import BftKit.Hotstuff.Pipeline
import BftKit.Hotstuff.Quiescence
import BftKit.Hotstuff.Ready
import BftKit.Hotstuff.Rest
import BftKit.Hotstuff.Rounds
import BftKit.Hotstuff.Safety
import BftKit.Hotstuff.Servers
import BftKit.Hotstuff.Voting
import BftKit.Pbft.Certificates
import BftKit.Pbft.CorrectPrimary
import BftKit.Pbft.EnterView
import BftKit.Pbft.Equivocation
import BftKit.Pbft.Order
import BftKit.Pbft.Outgoing
import BftKit.Pbft.Prepared
import BftKit.Pbft.Retransmission
import BftKit.Pbft.Returns
import BftKit.Pbft.Settling
import BftKit.Pbft.WorkConserving
import BftKit.Transport.Service
import BftKit.Unreplicated.Capacity
