import ServerClientApp.PartialTransfers
import ServerClientApp.Runs
import ServerClientApp.Outcomes
import ServerClientApp.Protocols
import ServerClientApp.FrameCodec
import ServerClientApp.StarMatching
import ServerClientApp.StarLanguages
import ServerClientApp.Wildcards
import ServerClientApp.Rounding
import ServerClientApp.Datagrams
import ServerClientApp.NumberTexts
import ServerClientApp.ServerHandlers
import ServerClientApp.HandlerSpecs
import ServerClientApp.Leases
import ServerClientApp.ServerRuns
import ServerClientApp.Ledger
import ServerClientApp.Delivery
import ServerClientApp.Handshake
import ServerClientApp.PollRounds
import ServerClientApp.BlockingReads
import ServerClientApp.SubscriberHandlers
import ServerClientApp.SubscriberSpecs
import ServerClientApp.Sessions
import ServerClientApp.SessionGuarantees
import ServerClientApp.Honoured
import ServerClientApp.TopicMatching
import ServerClientApp.MatcherIndices
import ServerClientApp.DatagramBounds
import ServerClientApp.StrayFrames
import ServerClientApp.Connections
import ServerClientApp.ClientLoop
import ServerClientApp.LineInput
import ServerClientApp.StdinLoops
import ServerClientApp.SubscriberProgram
import ServerClientApp.Fleets
import ServerClientApp.FleetGuarantees
import ServerClientApp.Settling
import ServerClientApp.Shutdown
import ServerClientApp.BlockingWrites
import ServerClientApp.Handles
import ServerClientApp.ServerProgram
import ServerClientApp.ProgramRuns
import ServerClientApp.Projections
import ServerClientApp.Words
import ServerClientApp.TypedLines
import ServerClientApp.Transcripts
import ServerClientApp.PublishedTexts
import ServerClientApp.Updates
import ServerClientApp.Faults
import ServerClientApp.Kills
import ServerClientApp.IterationOrder
import ServerClientApp.SubscriberHeap
import ServerClientApp.ServerHeapRuns
