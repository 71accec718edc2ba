import IcecastCommon.Avl.Code
import IcecastCommon.Avl.Delete
import IcecastCommon.Avl.Failures
import IcecastCommon.Avl.Fields
import IcecastCommon.Avl.Height
import IcecastCommon.Avl.Insert
import IcecastCommon.Avl.Large
import IcecastCommon.Avl.Lookup
import IcecastCommon.Avl.Nearest
import IcecastCommon.Avl.Node
import IcecastCommon.Avl.Ownership
import IcecastCommon.Avl.Packed
import IcecastCommon.Avl.PackedDelete
import IcecastCommon.Avl.Rotate
import IcecastCommon.Avl.Runs
import IcecastCommon.Avl.Shape
import IcecastCommon.Avl.Spans
import IcecastCommon.Avl.Stored
import IcecastCommon.Avl.Traverse
import IcecastCommon.Avl.Tree
import IcecastCommon.Avl.TreeDelete
import IcecastCommon.Avl.TreeInsert
import IcecastCommon.Avl.TreeOrder
import IcecastCommon.Avl.Verify
import IcecastCommon.Encoding.Allocated
import IcecastCommon.Encoding.Body
import IcecastCommon.Encoding.Carried
import IcecastCommon.Encoding.Counting
import IcecastCommon.Encoding.Delivery
import IcecastCommon.Encoding.EmptyWrite
import IcecastCommon.Encoding.ExtensionParser
import IcecastCommon.Encoding.Extensions
import IcecastCommon.Encoding.FailedWrite
import IcecastCommon.Encoding.Flushing
import IcecastCommon.Encoding.Lost
import IcecastCommon.Encoding.Metadata
import IcecastCommon.Encoding.Quotes
import IcecastCommon.Encoding.Reach
import IcecastCommon.Encoding.Read
import IcecastCommon.Encoding.ReadRun
import IcecastCommon.Encoding.RetryRead
import IcecastCommon.Encoding.RoundTrip
import IcecastCommon.Encoding.Scanner
import IcecastCommon.Encoding.Sized
import IcecastCommon.Encoding.State
import IcecastCommon.Encoding.Stream
import IcecastCommon.Encoding.Terminator
import IcecastCommon.Encoding.Transport
import IcecastCommon.Encoding.Write
import IcecastCommon.Encoding.WriteRun
import IcecastCommon.Httpp.Answers
import IcecastCommon.Httpp.Bounds
import IcecastCommon.Httpp.Entries
import IcecastCommon.Httpp.FirstEquals
import IcecastCommon.Httpp.Form
import IcecastCommon.Httpp.FormRoundTrip
import IcecastCommon.Httpp.Headers
import IcecastCommon.Httpp.Internal
import IcecastCommon.Httpp.Lines
import IcecastCommon.Httpp.Listing
import IcecastCommon.Httpp.Maps
import IcecastCommon.Httpp.Message
import IcecastCommon.Httpp.Reachable
import IcecastCommon.Httpp.Request
import IcecastCommon.Httpp.RequestLine
import IcecastCommon.Httpp.RequestRoundTrip
import IcecastCommon.Httpp.RequestText
import IcecastCommon.Httpp.Response
import IcecastCommon.Httpp.Stores
import IcecastCommon.Httpp.Unescape
import IcecastCommon.Httpp.Variables
import IcecastCommon.Httpp.Vars
import IcecastCommon.Httpp.Words
import IcecastCommon.Library.Calls
import IcecastCommon.Library.Context
import IcecastCommon.Library.Cursor
import IcecastCommon.Library.Handles
import IcecastCommon.Library.Lock
import IcecastCommon.Library.Order
import IcecastCommon.Library.Queue
import IcecastCommon.Library.Traversal
import IcecastCommon.Log.Absent
import IcecastCommon.Log.Alike
import IcecastCommon.Log.Archives
import IcecastCommon.Log.Code
import IcecastCommon.Log.Contents
import IcecastCommon.Log.Emitted
import IcecastCommon.Log.Escaped
import IcecastCommon.Log.Files
import IcecastCommon.Log.Format
import IcecastCommon.Log.FormatBounds
import IcecastCommon.Log.GivenLength
import IcecastCommon.Log.Printf
import IcecastCommon.Log.Retained
import IcecastCommon.Log.Reuse
import IcecastCommon.Log.Rotation
import IcecastCommon.Log.Settled
import IcecastCommon.Log.Slot
import IcecastCommon.Net.Connect
import IcecastCommon.Net.Fallback
import IcecastCommon.Net.ReadLine
import IcecastCommon.Net.Server
import IcecastCommon.Thread.Deadline
import IcecastCommon.Thread.Handover
import IcecastCommon.Thread.Interleaved
import IcecastCommon.Thread.Registered
import IcecastCommon.Thread.Registry
import IcecastCommon.Thread.Roles
import IcecastCommon.Thread.Sections
import IcecastCommon.Thread.Threads
