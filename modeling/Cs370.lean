import Cs370.Lib.Loop
import Cs370.Lib.Run
import Cs370.Lib.CInt
import Cs370.Lib.CExpr
import Cs370.Lib.Comp
import Cs370.Lib.Slots
import Cs370.Lib.Refine
import Cs370.MsDos.Types
import Cs370.MsDos.Descriptor
import Cs370.MsDos.Reader
import Cs370.MsDos.FatTable
import Cs370.MsDos.Layout
import Cs370.MsDos.Truncation
import Cs370.MsDos.Lossless
import Cs370.MsDos.Directory
import Cs370.MsDos.Listing
import Cs370.MsDos.Extract
import Cs370.MsDos.Label
import Cs370.MsDos.Contents
import Cs370.MsDos.Walk
import Cs370.MsDos.Names
import Cs370.MsDos.DosNames
import Cs370.MsDos.Independence
import Cs370.MsDos.Addresses
import Cs370.MsDos.Programs
import Cs370.MsDos.Coverage
import Cs370.MsDos.Format
import Cs370.MsDos.Printed
import Cs370.Kernel.List
import Cs370.Kernel.Mailbox
import Cs370.Kernel.MailboxInv
import Cs370.Kernel.MailboxSteps
import Cs370.Kernel.Send
import Cs370.Kernel.Fifo
import Cs370.Kernel.Delivery
import Cs370.Kernel.Rings
import Cs370.Kernel.Receive
import Cs370.Kernel.Ownership
import Cs370.Kernel.Sched
import Cs370.Kernel.TimeSlice
import Cs370.Kernel.Swipe
import Cs370.Kernel.Join
import Cs370.Kernel.Tasks
import Cs370.Kernel.JoinTokens
import Cs370.Kernel.Semaphore
import Cs370.Kernel.SemaphoreInv
import Cs370.Kernel.SemaphoreWake
import Cs370.Kernel.Mutex
import Cs370.Kernel.JoinSemaphore
import Cs370.Kernel.MailboxLock
import Cs370.Kernel.MailboxEnds
import Cs370.Kernel.ReadWrite
import Cs370.Lexer.Tok
import Cs370.Lexer.Lex
import Cs370.Lexer.Text
import Cs370.Lexer.Grammar
import Cs370.Lexer.Outcome
import Cs370.Lexer.Ends
import Cs370.Lexer.Lines
import Cs370.Lexer.FileEnds
import Cs370.Lexer.Lost
import Cs370.Lexer.Render
import Cs370.Lexer.Table
import Cs370.Kernel.ListQueues
import Cs370.Kernel.RunQueue
import Cs370.Kernel.RunQueueCalls
import Cs370.Kernel.RunQueueRuns
import Cs370.Kernel.RunQueueSlice
