import HttpAudioServer.Json
import HttpAudioServer.Library.Blocks
import HttpAudioServer.Library.Imperative
import HttpAudioServer.Library.Memory
import HttpAudioServer.Library.Run
import HttpAudioServer.Library.Sources
import HttpAudioServer.Encoder
import HttpAudioServer.Framer
import HttpAudioServer.Stream
import HttpAudioServer.Playback
import HttpAudioServer.Playlist
import HttpAudioServer.Delivery
import HttpAudioServer.Alignment
import HttpAudioServer.Gapless
import HttpAudioServer.Clocks
import HttpAudioServer.Announcements
import HttpAudioServer.Page
import HttpAudioServer.EndOfStream
import HttpAudioServer.Response
import HttpAudioServer.Chunks
import HttpAudioServer.Main
import HttpAudioServer.Heads
import HttpAudioServer.Atomicity
import HttpAudioServer.Feeds
import HttpAudioServer.Flush
import HttpAudioServer.Timestamps
import HttpAudioServer.Termination
import HttpAudioServer.Payloads
import HttpAudioServer.Process
import HttpAudioServer.Signals
import HttpAudioServer.Library.Unwinding
import HttpAudioServer.Connections
import HttpAudioServer.Routes
import HttpAudioServer.Isolation
import HttpAudioServer.FreshIds
import HttpAudioServer.Library.Javascript
import HttpAudioServer.JsonText
import HttpAudioServer.Titles
import HttpAudioServer.Answers
import HttpAudioServer.Appends
import HttpAudioServer.Library.Regex
import HttpAudioServer.Routing
import HttpAudioServer.Copies
import HttpAudioServer.Library.OrderedMap
import HttpAudioServer.Logger
import HttpAudioServer.StringUtils
import HttpAudioServer.Library.FloatingPoint
import HttpAudioServer.Library.DoubleRounding
import HttpAudioServer.Numerals
import HttpAudioServer.Metadata
import HttpAudioServer.Flatten
import HttpAudioServer.Tags
import HttpAudioServer.Numbers
import HttpAudioServer.Clients
import HttpAudioServer.Replies
import HttpAudioServer.Library.Schedule
import HttpAudioServer.Execution
import HttpAudioServer.Decoding
import HttpAudioServer.Destruction
import HttpAudioServer.Listening
import HttpAudioServer.Labels
import HttpAudioServer.Adding
import HttpAudioServer.Descriptors
import HttpAudioServer.Polling
import HttpAudioServer.Library.Screen
import HttpAudioServer.Terminal
import HttpAudioServer.Lexer
import HttpAudioServer.Grammar
import HttpAudioServer.Tokens
import HttpAudioServer.Library.Throwing
import HttpAudioServer.Parser
import HttpAudioServer.Documents
import HttpAudioServer.Dumps
import HttpAudioServer.Figures
import HttpAudioServer.Bodies
