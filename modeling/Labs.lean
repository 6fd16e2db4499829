import Labs.AfLocal.Chunking
import Labs.Lib.Frames
import Labs.AfLocal.Framing
import Labs.Lib.NodeHeap
import Labs.Lib.Stdio
import Labs.TaskLedger.Entry
import Labs.TaskLedger.Funcs
import Labs.TaskLedger.Remove
import Labs.TaskLedger.Add
import Labs.TaskLedger.LoadFrom
import Labs.TaskLedger.Count
import Labs.Lib.Descriptors
import Labs.Pipeline.Spawn
import Labs.Pipeline.Hygiene
import Labs.Pipeline.Redirections
import Labs.Lib.Strtok
import Labs.MiniBash.ParseCmd
import Labs.MiniBash.Clobber
import Labs.Chatroom.ControlRoom
import Labs.Chatroom.Authorisation
import Labs.ConsumerSupplier.Program
import Labs.ConsumerSupplier.Conservation
import Labs.CustomerStore.Program
import Labs.CustomerStore.Knowledge
import Labs.CustomerStore.Stuck
import Labs.TaskLedger.ByKey
import Labs.Lib.Arithmetic
import Labs.Calculator.Program
import Labs.Calculator.Numerals
import Labs.Calculator.Evaluate
import Labs.Calculator.Lines
import Labs.Calculator.Independence
import Labs.Calculator.Grammar
import Labs.Calculator.Turns
import Labs.Calculator.Reset
import Labs.Calculator.Remainder
import Labs.Calculator.Formulas
import Labs.Calculator.Spacing
import Labs.Calculator.GetLine
import Labs.Pipeline.Parser
import Labs.Pipeline.RoundTrip
import Labs.MiniBash.Session
import Labs.MiniBash.Codes
import Labs.MiniBash.Prompt
import Labs.Chatroom.UserList
import Labs.Chatroom.IndexSafety
import Labs.Chatroom.Messages
import Labs.Chatroom.Mailbox
import Labs.Chatroom.Delivery
import Labs.Lib.MessageQueue
import Labs.PosixQueue.Program
import Labs.PosixQueue.Totals
import Labs.Chatroom.Passes
import Labs.ConsumerSupplier.Discipline
import Labs.ConsumerSupplier.Family
import Labs.ConsumerSupplier.Termination
import Labs.ConsumerSupplier.Failing
import Labs.IncrProg.Program
import Labs.GasStation.Accounts
import Labs.IncrProg.Counting
import Labs.GasStation.Knowledge
import Labs.GasStation.Wakeups
import Labs.CustomerStore.Shutdown
import Labs.CustomerStore.Stock
import Labs.Lib.QueueTable
import Labs.PosixQueue.Unlink
import Labs.SysVQueue.Program
import Labs.SysVQueue.Removal
import Labs.Lib.Loops
import Labs.TaskLedger.AddressBook
import Labs.TaskLedger.Linked
import Labs.TaskLedger.ExitStatus
import Labs.TaskLedger.FirstMatch
import Labs.TaskLedger.Values
import Labs.TaskLedger.LongValues
import Labs.TaskLedger.Accepted
import Labs.TaskLedger.Closing
import Labs.TaskLedger.Typing
import Labs.FileManager.Cursor
import Labs.FileManager.Selection
import Labs.TextEditor.Program
import Labs.TextEditor.Borders
import Labs.Lib.Page
import Labs.TextEditor.Saving
import Labs.RacingCounter.Program
import Labs.RacingCounter.Bounds
import Labs.RacingCounter.FinalValues
import Labs.AddressBook.Program
import Labs.AddressBook.Display
import Labs.TaskLedger.EndOfInput
import Labs.TaskLedger.Inside
import Labs.AddressBook.EndOfInput
import Labs.AddressBook.Adding
import Labs.Pipeline.Tokens
import Labs.MiniBash.ArgArray
import Labs.MiniBash.Bash12
import Labs.MiniBash.Builtins
import Labs.MiniBash.EndOfInput
import Labs.Pipeline.Killing
import Labs.Pipeline.MyPipe
import Labs.Lib.Spiral
import Labs.ReverseMatrix.Program
import Labs.Snake.Program
import Labs.Snake.Filling
import Labs.Snake.Matrix
import Labs.Lib.Grid
import Labs.MatrixProduct.Program
import Labs.MatrixProduct.Product
import Labs.MatrixProduct.Cleanup
import Labs.MutexCounter.Program
import Labs.MutexCounter.Counting
import Labs.CustomerStore.Levels
import Labs.ConsumerSupplier.Restocking
import Labs.Lib.Strtol
import Labs.CommandLine.Program
import Labs.CommandLine.Numbers
import Labs.SysVQueue.SenderReceiver
import Labs.Lib.Retry
import Labs.ReversedLine.GetLine
import Labs.Lib.OpenFile
import Labs.ReversedLine.Modes
import Labs.Lib.Ledger
import Labs.FileManager.Shutdown
import Labs.SharedMessage.Program
import Labs.SharedMessage.Reading
import Labs.SharedMessage.Outputs
import Labs.SharedFile.Program
import Labs.SharedFile.Letters
import Labs.SharedFile.LeftOver
import Labs.EchoServer.Buffer
import Labs.EchoServer.Growing
import Labs.EchoServer.Conversation
import Labs.EchoServer.Answers
import Labs.EchoServer.Whose
import Labs.EchoServer.Greeting
import Labs.GasStation.Closing
import Labs.Lib.Solo
import Labs.ServerPool.Program
import Labs.ServerPool.Slots
import Labs.ServerPool.Tables
import Labs.OneCar.Program
import Labs.OneCar.Mutex
import Labs.OneCar.Closing
import Labs.TcpEcho.Program
import Labs.TcpEcho.Lines
import Labs.TcpEcho.Turns
import Labs.TcpEcho.Service
import Labs.TcpEcho.Closing
import Labs.ForkTree.Program
import Labs.ForkTree.Counting
import Labs.ForkTree.Order
import Labs.ForkTree.Ending
import Labs.TaskLedger.Grammar
