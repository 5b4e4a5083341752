import IronGraph.Storage.Segment
import IronGraph.Storage.Admission
import IronGraph.Engine.Mailbox
import IronGraph.Engine.MailboxDeadline
import IronGraph.Engine.Writer
import IronGraph.Graph.Adjacency
import IronGraph.Broker.Recovery
import IronGraph.Temporal.Latest
import IronGraph.Graph.PostingRuns
import IronGraph.Cypher.IndexScan
import IronGraph.Server.Commit
import IronGraph.Server.Scope
import IronGraph.Server.Cursor
import IronGraph.Execution.Memory
import IronGraph.Broker.Routing
import IronGraph.Graph.Paths
