import UnixLabs.Library.CArray
import UnixLabs.Library.Run
import UnixLabs.Library.SlotTable
import UnixLabs.Library.Framing
import UnixLabs.Platform
import UnixLabs.Lab33.SessionPairs
import UnixLabs.Lab33.ProxyRounds
import UnixLabs.Lab34.ServerTables
import UnixLabs.Lab34.CyclicQueue
import UnixLabs.Lab34.EncoderRoom
import UnixLabs.Lab34.ReceiverChunks
import UnixLabs.Lab34.ReceiverCounts
import UnixLabs.Lab34.ReceiverFrames
import UnixLabs.Lab34.MessageRoundTrip
import UnixLabs.Lab34.TunnelFraming
import UnixLabs.Lab34.TunnelOrders
import UnixLabs.Lab34.TunnelWrites
import UnixLabs.Lab34.TunnelReads
import UnixLabs.Lab34.SendLoop
import UnixLabs.Lab34.SenderTables
import UnixLabs.Lab34.SenderSessions
import UnixLabs.Lab34.SenderFrames
import UnixLabs.Lab34.SenderChunks
import UnixLabs.Lab34.SenderPolls
import UnixLabs.Lab34.SenderEvents
import UnixLabs.Lab34.ClientScan
import UnixLabs.Lab34.ControlMessages
import UnixLabs.Lab31.TableBounds
import UnixLabs.Lab31.Removals
import UnixLabs.Lab31.ServerPolls
import UnixLabs.Lab31.ReadResults
import UnixLabs.GetLine
import UnixLabs.Lab17.Editor
import UnixLabs.Lab17.LineAccesses
import UnixLabs.Lab17.WordWrap
import UnixLabs.Lab6
import UnixLabs.Reserve
import UnixLabs.WriteFile
import UnixLabs.ParseParams
import UnixLabs.Lab1
import UnixLabs.Lab18
import UnixLabs.Lab32.Cleanup
import UnixLabs.Lab4
import UnixLabs.Lab25.ProcessRuns
import UnixLabs.Lab26
import UnixLabs.Lab32.Signals
import UnixLabs.Lab31.ThreadPolls
import UnixLabs.Lab31.ThreadTables
import UnixLabs.Queries
import UnixLabs.Lab33.ServerService
import UnixLabs.Lab34.Buffers
import UnixLabs.Lab34.SenderDescriptors
import UnixLabs.Lab34.SenderRounds
import UnixLabs.Lab34.SenderTurns
