import MyLua.Foundation.Runs
import MyLua.Foundation.Pool
import MyLua.Foundation.StdMap
import MyLua.Foundation.Blocks
import MyLua.Foundation.LuaStack
import MyLua.Tools.Base64Capacity
import MyLua.Tools.Base64Bits
import MyLua.Tools.Base64SizeCheck
import MyLua.Tools.Base64Failure
import MyLua.Tools.Base64Buffers
import MyLua.Tools.Bindings
import MyLua.Tools.BinarySafety
import MyLua.Tools.Records
import MyLua.Tools.HexCanonical
import MyLua.MainFrame.Store
import MyLua.MainFrame.RequestStore
import MyLua.MainFrame.FreeList
import MyLua.MainFrame.Observer
import MyLua.MainFrame.Clients
import MyLua.MainFrame.Ownership
import MyLua.MainFrame.Modes
import MyLua.MainFrame.Worker
import MyLua.MainFrame.Overflow
import MyLua.MainFrame.Leaks
import MyLua.Log.Conservation
import MyLua.Log.Offsets
import MyLua.Log.Closing
import MyLua.Log.Bounds
import MyLua.Log.Status
import MyLua.Portal.RoundTrip
import MyLua.Portal.KeyText
import MyLua.Message.Delivery
import MyLua.Message.Framing
import MyLua.Message.Acceptance
import MyLua.Message.Creation
import MyLua.Service.Shutdown
import MyLua.Service.Require
import MyLua.Foundation.Chains
import MyLua.Foundation.Scatter
import MyLua.Foundation.ScatterContents
import MyLua.Lua.Constructor
import MyLua.Lua.Traversal
