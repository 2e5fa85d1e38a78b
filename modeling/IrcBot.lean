import IrcBot.Machine.Mealy
import IrcBot.Irc.Message
import IrcBot.Irc.Parser
import IrcBot.Irc.Chunks
import IrcBot.Irc.Lines
import IrcBot.Irc.Segments
import IrcBot.Irc.Grammar
import IrcBot.Irc.Params
import IrcBot.Irc.Emitted
import IrcBot.Irc.RoundTrip
import IrcBot.Irc.Shape
import IrcBot.Irc.Clean
import IrcBot.Irc.Calls
import IrcBot.Wire.Field
import IrcBot.Wire.Reader
import IrcBot.Protocol.Schema
import IrcBot.Protocol.Codec
import IrcBot.Machine.Framing
import IrcBot.Protocol.Endpoints
import IrcBot.Protocol.Agreement
import IrcBot.Protocol.Framing
import IrcBot.Machine.Precedence
import IrcBot.Plugin.Plugin
import IrcBot.Plugin.TcpPlugin
import IrcBot.Plugin.Authentication
import IrcBot.Plugin.Receiving
import IrcBot.Core.Core
import IrcBot.Core.System
import IrcBot.Core.IoThread
import IrcBot.Core.Dispatch
import IrcBot.Command.CommandParser
import IrcBot.Command.Reference
import IrcBot.Command.Quoting
import IrcBot.Admin.AdminPort
import IrcBot.Admin.Survival
import IrcBot.Admin.Framing
import IrcBot.Core.Loading
import IrcBot.Core.Libraries
import IrcBot.Core.Unregister
import IrcBot.Core.Reconnect
import IrcBot.Core.Triggers
import IrcBot.Core.Result
import IrcBot.Core.Restart
import IrcBot.Core.Connect
import IrcBot.Machine.Fallible
import IrcBot.Plugins.Helpers
import IrcBot.Plugins.Init
import IrcBot.Core.Send
import IrcBot.Plugin.Commands
import IrcBot.Plugin.Worker
import IrcBot.Plugins.Clipboard
import IrcBot.Plugins.Isolation
import IrcBot.Plugins.Limits
import IrcBot.Plugins.Removal
import IrcBot.Plugins.Bundled
import IrcBot.Plugin.Respawn
import IrcBot.Machine.Fifo
import IrcBot.Network.Buffer
import IrcBot.Machine.Mutex
import IrcBot.Log.Logger
import IrcBot.Machine.Operations
import IrcBot.Network.Loops
import IrcBot.Irc.Resync
import IrcBot.Irc.Bounds
import IrcBot.Core.Answers
import IrcBot.Core.Quiescence
import IrcBot.Protocol.Merging
import IrcBot.Protocol.Coalesced
import IrcBot.Plugin.Backpressure
import IrcBot.Plugin.Conversation
import IrcBot.Machine.Growth
import IrcBot.Admin.Sessions
import IrcBot.Plugin.Stopping
import IrcBot.Core.Identifiers
import IrcBot.Core.Handlers
import IrcBot.Plugin.Functions
import IrcBot.Plugins.SimpleCommands
import IrcBot.Network.ContextProvider
import IrcBot.Core.Program
