import Rolis.Paxos.CommitChecks
import Rolis.Paxos.Durability
import Rolis.Paxos.Heartbeat
import Rolis.Paxos.MarshalTheorems
import Rolis.Paxos.Proposals
import Rolis.Paxos.Quorum
import Rolis.Paxos.Threads
import Rolis.Replay.CatchUp
import Rolis.Replay.Categories
import Rolis.Replay.NoopsBarrier
import Rolis.Replay.Promotion
import Rolis.Sto.DirectFiles
import Rolis.Sto.Equivalence
import Rolis.Sto.EvenPool
import Rolis.Sto.EvenWrapper
import Rolis.Sto.ItemTable
import Rolis.Sto.LoadObjects
import Rolis.Sto.NonTransWrite
import Rolis.Sto.OccCut
import Rolis.Sto.OccReads
import Rolis.Sto.OccReplica
import Rolis.Sto.RangeScan
import Rolis.Sto.ReplayRace
import Rolis.Sto.SharedTableTheorems
import Rolis.Sto.Sizes
import Rolis.Sto.ValueBuffer
import Rolis.Sto.WordOwner
import Rolis.Tpcc.TableIds
