import SpeUtils.Ring.Queue
import SpeUtils.Spu.Drain
import SpeUtils.Spu.Buffers
import SpeUtils.Spu.Registration
import SpeUtils.Spu.Builtins
import SpeUtils.Spu.Lookup
import SpeUtils.Spu.Loader
import SpeUtils.Spu.Independence
import SpeUtils.Spu.Plain
import SpeUtils.Fifo.Delivery
import SpeUtils.Fifo.Batches
import SpeUtils.Fifo.Accounting
import SpeUtils.Fifo.Termination
import SpeUtils.Fifo.Placement
import SpeUtils.Fifo.Threads
import SpeUtils.Fifo.Publish
import SpeUtils.Fifo.Empty
import SpeUtils.Fifo.Nesting
import SpeUtils.Fifo.Register
import SpeUtils.Fifo.Isolation
import SpeUtils.Fifo.Select
import SpeUtils.Fifo.Sweep
import SpeUtils.Fifo.Init
import SpeUtils.LinkedList.Representation
import SpeUtils.LinkedList.Removal
import SpeUtils.LinkedList.Session
import SpeUtils.SpeThread.Mailbox
import SpeUtils.SpeMessage
import SpeUtils.Example.Conversation
import SpeUtils.Example.Callback
