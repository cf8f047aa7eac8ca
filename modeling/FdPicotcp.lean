import FdPicotcp.Lib.Transition
import FdPicotcp.Lib.Token
import FdPicotcp.Lib.CInt
import FdPicotcp.Stack.TcpQueue
import FdPicotcp.Stack.UdpQueue
import FdPicotcp.Stack.Socket
import FdPicotcp.Wrapper.Elem
import FdPicotcp.Wrapper.Descriptor
import FdPicotcp.Wrapper.Drain
import FdPicotcp.Wrapper.Announce
import FdPicotcp.Wrapper.Wakeups
import FdPicotcp.Wrapper.EndOfFile
import FdPicotcp.Wrapper.Poll
import FdPicotcp.Wrapper.Blocked
import FdPicotcp.Wrapper.HandOver
import FdPicotcp.Table.FdTable
import FdPicotcp.Table.Growth
import FdPicotcp.Table.Interpose
import FdPicotcp.Table.Ownership
import FdPicotcp.Table.Map
import FdPicotcp.Table.FrontEnds
import FdPicotcp.Lib.Threads
import FdPicotcp.Table.Start
import FdPicotcp.Table.Creators
import FdPicotcp.Table.Lookups
import FdPicotcp.Table.Closing
import FdPicotcp.Table.Stray
import FdPicotcp.Address.Text
import FdPicotcp.Address.Family
import FdPicotcp.Table.Resources
import FdPicotcp.Wrapper.Capacity
import FdPicotcp.Table.Recursion
import FdPicotcp.Address.Peer
import FdPicotcp.Wrapper.FailedRead
import FdPicotcp.Table.Accept
import FdPicotcp.Wrapper.Granted
import FdPicotcp.Stack.TcpOutput
import FdPicotcp.Lib.SearchTree
import FdPicotcp.Stack.PortTable
import FdPicotcp.Address.Dad
import FdPicotcp.Address.Links
import FdPicotcp.Address.RoundTrip
import FdPicotcp.Table.Limit
import FdPicotcp.Wrapper.Binary
import FdPicotcp.Wrapper.DrainLoop
import FdPicotcp.Address.Netmask
import FdPicotcp.Wrapper.Connect
import FdPicotcp.Lib.Program
import FdPicotcp.Table.Status
import FdPicotcp.Lib.Pieces
import FdPicotcp.Stack.Reassembly
import FdPicotcp.Lib.BinaryHeap
import FdPicotcp.Stack.Heap
import FdPicotcp.Stack.Timers
import FdPicotcp.Lib.ColorTree
import FdPicotcp.Stack.Tree
import FdPicotcp.Stack.Trees
import FdPicotcp.Stack.Transfer
import FdPicotcp.Stack.Fragments
import FdPicotcp.Stack.Datagram
import FdPicotcp.Address.Binds
import FdPicotcp.Table.Alone
