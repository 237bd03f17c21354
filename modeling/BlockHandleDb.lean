import BlockHandleDb.Types
import BlockHandleDb.Record
import BlockHandleDb.Storage
import BlockHandleDb.Steps
import BlockHandleDb.HandleCache
import BlockHandleDb.Sequential
import BlockHandleDb.DropHandle
import BlockHandleDb.Handle
import BlockHandleDb.NodeState
import BlockHandleDb.StateWrites
import BlockHandleDb.Progress
import BlockHandleDb.CreateHandle
import BlockHandleDb.FullBlockId
import BlockHandleDb.Flags
